import Mathlib.Data.List.DropRight
import Tidemark.Proofs.Checkpoint.Interruption
import Tidemark.Proofs.Operator.Running

/-! Fleets. Coordinators of different partitions share an archive, each with its own target, and
their barriers come in any order. What the archive has of a partition are the newest checkpoints
that its own coordinator took, whatever the others do. -/

namespace Tidemark

namespace MemoryArchive

variable {m : MemoryArchive} {n : Manifest} {state : Bytes} {p : UInt32} {keep : ℕ}

theorem thinned_purge (m : MemoryArchive) (p : UInt32) (keep : ℕ) :
    Thinned p m (m.purge p keep) := by
  intro s
  rw [manifests_purge, states_purge]
  by_cases hs : s.partition = p ∧ s.id ∈ m.stale p keep
  · exact .inr ⟨hs.1, if_pos hs⟩
  · exact .inl ⟨if_neg hs, if_neg hs⟩

theorem cut_record (m : MemoryArchive) (n : Manifest) (state : Bytes) (keep : ℕ) :
    Cut m n state (m.record n state keep) :=
  ⟨_, .manifest, thinned_purge _ n.partition keep⟩

/-- These are the checkpoints that the archive has of a partition. -/
structure Stores (m : MemoryArchive) (p : UInt32) (kept : List (Manifest × Bytes)) : Prop where
  list_eq : m.list p = kept.map (·.1.id)
  partition : ∀ x ∈ kept, x.1.partition = p
  manifest : ∀ x ∈ kept, m.manifests[x.1.share]? = some x.1
  state : ∀ x ∈ kept, m.states[x.1.share]? = some x.2

variable {kept : List (Manifest × Bytes)}

/-- What another checkpoint leaves listed is still there as it was saved. -/
theorem Stores.of_listed (h : m.Stores p kept) {x : Manifest × Bytes} (hx : x ∈ kept)
    (hne : x.1.share ≠ n.share) (hlisted : x.1.id ∈ (m.record n state keep).list p) :
    (m.record n state keep).manifests[x.1.share]? = some x.1 ∧
      (m.record n state keep).states[x.1.share]? = some x.2 := by
  rcases (m.cut_record n state keep).of_ne hne with ⟨hmanifest, hstate⟩ | ⟨_, hgone⟩
  · rw [hmanifest, hstate]
    exact ⟨h.manifest x hx, h.state x hx⟩
  · have hshare : x.1.share = ⟨x.1.id, p⟩ := by rw [← h.partition x hx]; rfl
    rw [mem_list, ← hshare, hgone] at hlisted
    cases hlisted

theorem Stores.of_ne (h : m.Stores p kept) (hp : p ≠ n.partition) :
    (m.record n state keep).Stores p kept := by
  have hlist : (m.record n state keep).list p = kept.map (·.1.id) :=
    ((m.cut_record n state keep).list_of_ne hp).trans h.list_eq
  have hold : ∀ x ∈ kept, (m.record n state keep).manifests[x.1.share]? = some x.1 ∧
      (m.record n state keep).states[x.1.share]? = some x.2 := by
    intro x hx
    have hne : x.1.partition ≠ n.partition := h.partition x hx ▸ hp
    refine h.of_listed hx (fun he => hne (congrArg Share.partition he)) ?_
    exact hlist ▸ List.mem_map_of_mem hx
  exact ⟨hlist, h.partition, fun x hx => (hold x hx).1, fun x hx => (hold x hx).2⟩

theorem list_record (hnewest : ∀ id ∈ m.list n.partition, id < n.id) :
    (m.record n state keep).list n.partition = (m.list n.partition ++ [n.id]).rtake keep := by
  have hsaved : ((m.saveState n.share state).saveManifest n).list n.partition =
      m.list n.partition ++ [n.id] := by
    refine (pairwise_list _ _).eq_of_mem_iff ?_ fun id => ?_
    · refine List.pairwise_append.2 ⟨m.pairwise_list _, by simp, fun i hi j hj => ?_⟩
      rw [List.mem_singleton.1 hj]
      exact hnewest i hi
    · rw [mem_list_save, List.mem_append, List.mem_singleton, or_comm]
  rw [record, list_purge, hsaved]
  rfl

/-- A newer checkpoint goes to the end, and pushes out the oldest when there are too many. -/
theorem Stores.record (h : m.Stores n.partition kept)
    (hnewest : ∀ id ∈ m.list n.partition, id < n.id) :
    (m.record n state (keep + 1)).Stores n.partition (kept.rtake keep ++ [(n, state)]) := by
  have hnone : (m.list n.partition).filter (n.id < ·) = [] := by
    rw [List.filter_eq_nil_iff]
    exact fun id hid => by simpa using UInt64.le_of_lt (hnewest id hid)
  have hlist : (m.record n state (keep + 1)).list n.partition =
      (kept.rtake keep ++ [(n, state)]).map (·.1.id) := by
    rw [list_record hnewest, List.rtake_concat_succ, h.list_eq, List.map_append]
    simp [List.rtake, List.map_drop]
  have hold : ∀ x ∈ kept.rtake keep,
      (m.record n state (keep + 1)).manifests[x.1.share]? = some x.1 ∧
        (m.record n state (keep + 1)).states[x.1.share]? = some x.2 := by
    intro x hx
    have hmem : x ∈ kept := List.mem_of_mem_drop hx
    have hid : x.1.id < n.id := hnewest x.1.id (h.list_eq ▸ List.mem_map_of_mem hmem)
    refine h.of_listed hmem (fun he => UInt64.ne_of_lt hid (congrArg Share.id he)) ?_
    exact hlist ▸ List.mem_map_of_mem (List.mem_append_left _ hx)
  refine ⟨hlist, fun x hx => ?_, fun x hx => ?_, fun x hx => ?_⟩
  · rcases List.mem_append.1 hx with hx | hx
    · exact h.partition x (List.mem_of_mem_drop hx)
    · rw [List.mem_singleton.1 hx]
  · rcases List.mem_append.1 hx with hx | hx
    · exact (hold x hx).1
    · rw [List.mem_singleton.1 hx, manifests_record, hnone]
      rfl
  · rcases List.mem_append.1 hx with hx | hx
    · exact (hold x hx).2
    · rw [List.mem_singleton.1 hx, states_record, hnone]
      rfl

end MemoryArchive

namespace Station

variable {τ : Type} {t : Target τ} {b : Barrier} {s : Station τ} {m : MemoryArchive}

theorem takeCheckpoint_of_error {e : Error} {target : τ}
    (h : offer t b s = .error e { s with target }) :
    takeCheckpoint t b s = .error e { s with target } := by
  rw [takeCheckpoint_eq_bind, Command.run_bind, h]

theorem takeCheckpoint_of_ok (hm : s.archive.Has m) {state : Bytes} {target : τ}
    (h : offer t b s = .ok state { s with target }) :
    let n := manifestOf t b s.coordinator.partition target state
    ∃ archive, archive.Has (m.record n state s.coordinator.retained) ∧
      takeCheckpoint t b s =
        .ok n ⟨{ s.coordinator with last := some b.id }, archive, target⟩ := by
  intro n
  obtain ⟨archive, hhas, hsave⟩ := exists_save (s := { s with target }) hm t b state
  refine ⟨archive, hhas, ?_⟩
  rw [takeCheckpoint_eq_bind, Command.run_bind, h]
  exact hsave

/-- Hand the state of a checkpoint to the target. -/
def resume (t : Target τ) (n : Manifest) (state : Bytes) : Command (Station τ) Manifest := do
  onTarget ((t.restore state).inContext s!"restore from checkpoint {n.id}")
  note n.id
  return n

theorem restoreFrom_eq_resume {n : Manifest} {state : Bytes}
    (hmanifest : s.archive.loadManifest ⟨n.id, s.coordinator.partition⟩ = .ok n)
    (hstate : s.archive.loadState ⟨n.id, s.coordinator.partition⟩ = .ok state) (t : Target τ) :
    restoreFrom t n.id s = resume t n state s := by
  rw [restoreFrom_eq hmanifest hstate, resume, Command.run_bind, run_onTarget, Command.inContext,
    Command.mapError]
  cases t.restore state s.target <;> rfl

end Station

/-- Coordinators and targets of all partitions, and the archive that they share. -/
structure Fleet (τ : UInt32 → Type) where
  archive : Archive
  coordinator : UInt32 → Coordinator
  target : ∀ p, τ p

namespace Fleet

open Station

inductive Event (τ : UInt32 → Type) where
  /-- A barrier reaches partition `p`. -/
  | barrier (p : UInt32) (b : Barrier)
  /-- The target of partition `p` works on, in whatever way. -/
  | work (p : UInt32) (target : τ p)

variable {τ : UInt32 → Type}

/-- The partitions `p` begin, to keep `keep p` checkpoints each. -/
def start (keep : UInt32 → ℕ) (archive : Archive) (target : ∀ p, τ p) : Fleet τ :=
  ⟨archive, fun p => Coordinator.retaining { partition := p } (keep p), target⟩

def station (f : Fleet τ) (p : UInt32) : Station (τ p) := ⟨f.coordinator p, f.archive, f.target p⟩

def replace (f : Fleet τ) (p : UInt32) (s : Station (τ p)) : Fleet τ where
  archive := s.archive
  coordinator := Function.update f.coordinator p s.coordinator
  target := Function.update f.target p s.target

variable (t : ∀ p, Target (τ p))

def step (f : Fleet τ) : Event τ → Fleet τ
  | .barrier p b => f.replace p ((takeCheckpoint (t p) b).after (f.station p))
  | .work p target => { f with target := Function.update f.target p target }

def through (events : List (Event τ)) (f : Fleet τ) : Fleet τ := events.foldl (step t) f

/-- What a partition saves at an event: the manifest and the state that it offers there. -/
def saved (f : Fleet τ) (p : UInt32) : Event τ → List (Manifest × Bytes)
  | .barrier q b =>
    if q = p then
      match offer (t q) b (f.station q) with
      | .ok state s => [(manifestOf (t q) b q s.target state, state)]
      | .error _ _ => []
    else []
  | .work _ _ => []

/-- All that a partition saves on the way. -/
def log (p : UInt32) : List (Event τ) → Fleet τ → List (Manifest × Bytes)
  | [], _ => []
  | e :: events, f => f.saved t p e ++ log p events (f.step t e)

/-- The archive and the coordinators know the newest of the checkpoints that were saved. -/
structure Keeps (keep : UInt32 → ℕ) (f : Fleet τ) (past : UInt32 → List (Manifest × Bytes)) :
    Prop where
  coordinator : ∀ p, f.coordinator p = ⟨p, max (keep p) 1, ((past p).map (·.1.id)).getLast?⟩
  ascending : ∀ p, ((past p).map (·.1.id)).Pairwise (· < ·)
  stored : ∃ m, f.archive.Has m ∧ ∀ p, m.Stores p ((past p).rtake (max (keep p) 1))

variable {t} {keep : UInt32 → ℕ} {f : Fleet τ} {past : UInt32 → List (Manifest × Bytes)}

theorem keeps_start {archive : Archive} (h : archive.Has {}) (target : ∀ p, τ p) :
    (start keep archive target).Keeps keep fun _ => [] where
  coordinator p := rfl
  ascending p := .nil
  stored := ⟨{}, h, fun p => ⟨by simp [MemoryArchive.list], by simp, by simp, by simp⟩⟩

/-- What a coordinator does not refuse is newer than all that it saved. -/
theorem Keeps.newer (h : f.Keeps keep past) {p : UInt32} {b : Barrier}
    (hnot : ¬ Refuses (t p) b (f.station p)) : ∀ id ∈ (past p).map (·.1.id), id < b.id := by
  intro id hid
  obtain ⟨last, hlast⟩ : ∃ last, ((past p).map (·.1.id)).getLast? = some last := by
    rw [← Option.isSome_iff_exists, List.getLast?_isSome]
    exact List.ne_nil_of_mem hid
  have hle : id ≤ last :=
    (getLast?_eq_some_of_ascending (h.ascending p) (List.mem_of_getLast? hlast)).1 hlast id hid
  refine UInt64.lt_of_le_of_lt hle (UInt64.not_le.1 fun hstale => hnot (.stale ?_ hstale))
  show (f.coordinator p).last = some last
  rw [h.coordinator, hlast]

theorem Keeps.work (h : f.Keeps keep past) (p : UInt32) (target : τ p) :
    (f.step t (.work p target)).Keeps keep past := ⟨h.coordinator, h.ascending, h.stored⟩

/-- A barrier that is refused leaves the archive and the coordinators as they are. -/
theorem step_of_refuses {p : UInt32} {b : Barrier} (h : Refuses (t p) b (f.station p)) :
    (∃ e, (takeCheckpoint (t p) b).answer (f.station p) = .error e) ∧
      (f.step t (.barrier p b)).archive = f.archive ∧
      (f.step t (.barrier p b)).coordinator = f.coordinator ∧
      ∀ q, f.saved t q (.barrier p b) = [] := by
  obtain ⟨_, e, target, hoffer⟩ | ⟨hnot, _⟩ := offer_cases (t p) b (f.station p)
  · have hrun := takeCheckpoint_of_error hoffer
    refine ⟨⟨e, by rw [Command.answer, hrun]⟩, ?_, ?_, fun q => ?_⟩
    · rw [step, Command.after, hrun]
      rfl
    · rw [step, Command.after, hrun]
      exact Function.update_eq_self p f.coordinator
    · rw [saved, hoffer]
      exact ite_self _
  · exact absurd h hnot

theorem rtake_rtake_succ {γ : Type} (l : List γ) (k : ℕ) :
    (l.rtake (k + 1)).rtake k = l.rtake k := by
  simp [List.rtake_eq_reverse_take_reverse, List.take_take]

/-- A newer checkpoint of a partition was saved. -/
theorem Keeps.record (h : f.Keeps keep past) {f' : Fleet τ} {m : MemoryArchive} {n : Manifest}
    {state : Bytes} (hnewer : ∀ id ∈ (past n.partition).map (·.1.id), id < n.id)
    (hm : ∀ q, m.Stores q ((past q).rtake (max (keep q) 1)))
    (harchive : f'.archive.Has (m.record n state (max (keep n.partition) 1)))
    (hcoordinator : f'.coordinator = Function.update f.coordinator n.partition
      { f.coordinator n.partition with last := some n.id }) :
    f'.Keeps keep
      (Function.update past n.partition (past n.partition ++ [(n, state)])) := by
  obtain ⟨k, hk⟩ := Nat.exists_eq_add_one_of_ne_zero (n := max (keep n.partition) 1) (by omega)
  refine ⟨fun q => ?_, fun q => ?_, _, harchive, fun q => ?_⟩
  all_goals by_cases hq : q = n.partition
  · subst hq
    rw [hcoordinator, Function.update_self, Function.update_self, h.coordinator]
    simp
  · rw [hcoordinator, Function.update_of_ne hq, Function.update_of_ne hq, h.coordinator]
  · subst hq
    rw [Function.update_self, List.map_append]
    refine List.pairwise_append.2 ⟨h.ascending _, by simp, fun i hi j hj => ?_⟩
    rw [List.mem_singleton.1 hj]
    exact hnewer i hi
  · rw [Function.update_of_ne hq]
    exact h.ascending q
  · subst hq
    have hkept := hm n.partition
    rw [hk] at hkept ⊢
    rw [Function.update_self, List.rtake_concat_succ, ← rtake_rtake_succ]
    refine hkept.record fun id hid => hnewer id ?_
    rw [hkept.list_eq] at hid
    obtain ⟨x, hx, rfl⟩ := List.mem_map.1 hid
    exact List.mem_map_of_mem (List.mem_of_mem_drop hx)
  · rw [Function.update_of_ne hq]
    exact (hm q).of_ne hq

/-- A barrier that is not refused is answered with the manifest that is saved. -/
theorem Keeps.barrier (h : f.Keeps keep past) {p : UInt32} {b : Barrier}
    (hnot : ¬ Refuses (t p) b (f.station p)) :
    (∃ prepared state target, (t p).prepare (f.target p) = .ok () prepared ∧
      (t p).snapshot prepared = .ok state target ∧
      f.saved t p (.barrier p b) = [(manifestOf (t p) b p target state, state)] ∧
      (takeCheckpoint (t p) b).answer (f.station p) =
        .ok (manifestOf (t p) b p target state)) ∧
    (f.step t (.barrier p b)).Keeps keep fun q => past q ++ f.saved t q (.barrier p b) := by
  obtain ⟨hrefused, _⟩ | ⟨_, prepared, state, target, hprepare, hsnapshot, hoffer⟩ :=
    offer_cases (t p) b (f.station p)
  · exact absurd hrefused hnot
  obtain ⟨m, hm, hstores⟩ := h.stored
  obtain ⟨archive, hhas, hrun⟩ := takeCheckpoint_of_ok (s := f.station p) hm hoffer
  let n := manifestOf (t p) b p target state
  have hcoordinator : (f.station p).coordinator =
      ⟨p, max (keep p) 1, ((past p).map (·.1.id)).getLast?⟩ := h.coordinator p
  have hsaved : f.saved t p (.barrier p b) = [(n, state)] := by
    rw [saved, if_pos rfl, hoffer]
  have hpast : (fun q => past q ++ f.saved t q (.barrier p b)) =
      Function.update past p (past p ++ [(n, state)]) := by
    funext q
    by_cases hq : q = p
    · rw [hq, hsaved, Function.update_self]
    · rw [Function.update_of_ne hq, saved, if_neg (Ne.symm hq), List.append_nil]
  rw [hcoordinator] at hhas hrun
  refine ⟨⟨prepared, state, target, hprepare, hsnapshot, hsaved, by rw [Command.answer, hrun]⟩, ?_⟩
  rw [hpast]
  refine h.record (n := n) (h.newer hnot) hstores ?_ ?_
  · rw [step, Command.after, hrun]
    exact hhas
  · rw [step, Command.after, hrun, replace]
    refine congrArg (Function.update f.coordinator p) ?_
    show _ = { f.coordinator p with last := some b.id }
    rw [h.coordinator]

theorem Keeps.step (h : f.Keeps keep past) (e : Event τ) :
    (f.step t e).Keeps keep fun q => past q ++ f.saved t q e := by
  cases e with
  | work p target => simpa [saved] using h.work p target
  | barrier p b =>
    by_cases hrefused : Refuses (t p) b (f.station p)
    · obtain ⟨_, harchive, hcoordinator, hsaved⟩ := step_of_refuses hrefused
      simp only [hsaved, List.append_nil]
      refine ⟨fun q => ?_, h.ascending, ?_⟩
      · rw [hcoordinator, h.coordinator]
      · rw [harchive]
        exact h.stored
    · exact (h.barrier hrefused).2

theorem Keeps.through (h : f.Keeps keep past) (events : List (Event τ)) :
    (f.through t events).Keeps keep fun q => past q ++ log t q events f := by
  induction events generalizing f past with
  | nil =>
    simp only [log, List.append_nil]
    exact h
  | cons e events ih =>
    simp only [log, ← List.append_assoc]
    exact ih (h.step e)

/-- What is saved was read out of the target of the partition. -/
theorem exists_of_mem_log {p : UInt32} {x : Manifest × Bytes} {events : List (Event τ)}
    (hx : x ∈ log t p events f) : ∃ b prepared target, (t p).snapshot prepared = .ok x.2 target ∧
      x.1 = manifestOf (t p) b p target x.2 := by
  induction events generalizing f with
  | nil => cases hx
  | cons e events ih =>
    rw [log, List.mem_append] at hx
    refine hx.elim (fun hnow => ?_) ih
    cases e with
    | work q target => cases hnow
    | barrier q b =>
      by_cases hq : q = p
      · subst hq
        rw [saved, if_pos rfl] at hnow
        obtain ⟨_, e, target, hoffer⟩ | ⟨_, prepared, state, target, _, hsnapshot, hoffer⟩ :=
          offer_cases (t q) b (f.station q)
        · rw [hoffer] at hnow
          cases hnow
        · rw [hoffer] at hnow
          rw [List.mem_singleton.1 hnow]
          exact ⟨b, prepared, target, hsnapshot, rfl⟩
      · rw [saved, if_neg hq] at hnow
        cases hnow

/-- A kept checkpoint loads. -/
theorem Keeps.loads (h : f.Keeps keep past) {p : UInt32} {x : Manifest × Bytes}
    (hx : x ∈ (past p).rtake (max (keep p) 1)) :
    x.1.partition = p ∧ f.archive.loadManifest ⟨x.1.id, p⟩ = .ok x.1 ∧
      f.archive.loadState ⟨x.1.id, p⟩ = .ok x.2 := by
  obtain ⟨m, hm, hstores⟩ := h.stored
  obtain hpartition := (hstores p).partition x hx
  have hshare : (⟨x.1.id, p⟩ : Share) = x.1.share := by rw [← hpartition]; rfl
  rw [hshare]
  exact ⟨hpartition, toOption_eq_some.1 ((hm.loadManifest _).trans ((hstores p).manifest x hx)),
    toOption_eq_some.1 ((hm.loadState _).trans ((hstores p).state x hx))⟩

theorem Keeps.list_eq (h : f.Keeps keep past) (p : UInt32) :
    f.archive.list p = .ok (((past p).rtake (max (keep p) 1)).map (·.1.id)) := by
  obtain ⟨m, hm, hstores⟩ := h.stored
  rw [hm.list_eq, (hstores p).list_eq]

/-- A coordinator of the partition that has the archive restores the checkpoints that are kept. -/
theorem Keeps.restores (h : f.Keeps keep past) {ρ : Type} (t' : Target ρ) {r : Station ρ}
    (harchive : r.archive = f.archive) :
    let kept := (past r.coordinator.partition).rtake (max (keep r.coordinator.partition) 1)
    (∀ x ∈ kept, restoreFrom t' x.1.id r = resume t' x.1 x.2 r) ∧
      restoreLatest t' r = match kept.getLast? with
        | none => .ok none r
        | some x => (some <$> resume t' x.1 x.2) r := by
  intro kept
  have hfrom : ∀ x ∈ kept, restoreFrom t' x.1.id r = resume t' x.1 x.2 r := by
    intro x hx
    obtain ⟨_, hmanifest, hstate⟩ := h.loads hx
    rw [← harchive] at hmanifest hstate
    exact restoreFrom_eq_resume hmanifest hstate t'
  have hlatest : r.archive.latest r.coordinator.partition =
      .ok (kept.getLast?.map (·.1.id)) := by
    rw [Archive.latest, harchive, h.list_eq, ← List.getLast?_map]
    rfl
  refine ⟨hfrom, ?_⟩
  cases hlast : kept.getLast? with
  | none =>
    rw [hlast] at hlatest
    exact restoreLatest_of_none hlatest t'
  | some x =>
    rw [hlast] at hlatest
    dsimp only
    rw [restoreLatest_of_some hlatest, map_eq_pure_bind, map_eq_pure_bind, Command.run_bind,
      Command.run_bind, hfrom x (List.mem_of_getLast? hlast)]

end Fleet

namespace Operator

variable {κ α ω : Type} [Encoding α] {o o' : Operator κ α ω} {bs : Bytes}

/-- The bytes of an operator tell its progress. -/
theorem progressOf_snapshot (h : snapshot o = .ok bs o') :
    Image.progressOf bs = .ok o'.progress := by
  obtain ⟨state, rfl⟩ := exists_image h
  exact Encoding.progressOf_encode _

end Operator

namespace Fleet

open Station

section Operators

variable (κ α ω : UInt32 → Type) [∀ p, Encoding (α p)]

/-- Operators of all partitions. -/
abbrev Operators (p : UInt32) : Type := Operator (κ p) (α p) (ω p)

/-- Operators as the targets. -/
def operators (p : UInt32) : Target (Operators κ α ω p) := Operator.target (κ p) (α p) (ω p)

end Operators

variable {κ α ω : UInt32 → Type} [∀ p, Encoding (α p)]

/-- However the barriers of the partitions are interleaved, the archive has of a partition the
newest checkpoints that its own coordinator took, as they were saved. A barrier that is refused
changes neither the archive nor a coordinator, any other saves what the target shows, and a new
coordinator restores what is kept. -/
theorem archive_keeps_newest (keep : UInt32 → ℕ) {archive : Archive}
    (harchive : archive = .inMemory ∨ ∃ top, archive = .inDirectory top)
    (target : ∀ p, Operators κ α ω p) (events : List (Event (Operators κ α ω))) (p : UInt32) :
    let t := operators κ α ω
    let f := (start keep archive target).through t events
    let past := log t p events (start keep archive target)
    let kept := past.rtake (max (keep p) 1)
    (past.map (·.1.id)).Pairwise (· < ·) ∧
    (f.coordinator p).last = (past.map (·.1.id)).getLast? ∧
    f.archive.list p = .ok (kept.map (·.1.id)) ∧
    (∀ x ∈ kept, f.archive.loadManifest ⟨x.1.id, p⟩ = .ok x.1 ∧
      f.archive.loadState ⟨x.1.id, p⟩ = .ok x.2 ∧ x.1.partition = p ∧
      x.1.stateSize = .ofNat x.2.length ∧ Image.progressOf x.2 = .ok x.1.progress) ∧
    (∀ b, Refuses (t p) b (f.station p) →
      (∃ e, (takeCheckpoint (t p) b).answer (f.station p) = .error e) ∧
      (f.step t (.barrier p b)).archive = f.archive ∧
      (f.step t (.barrier p b)).coordinator = f.coordinator ∧ f.saved t p (.barrier p b) = []) ∧
    (∀ b, ¬ Refuses (t p) b (f.station p) → ∃ prepared state target,
      (t p).prepare (f.target p) = .ok () prepared ∧
      (t p).snapshot prepared = .ok state target ∧
      f.saved t p (.barrier p b) = [(manifestOf (t p) b p target state, state)] ∧
      (takeCheckpoint (t p) b).answer (f.station p) =
        .ok (manifestOf (t p) b p target state)) ∧
    ∀ {ρ : Type} (t' : Target ρ) (r : Station ρ), r.archive = f.archive →
      r.coordinator.partition = p →
      (∀ x ∈ kept, restoreFrom t' x.1.id r = resume t' x.1 x.2 r) ∧
      restoreLatest t' r = match kept.getLast? with
        | none => .ok none r
        | some x => (some <$> resume t' x.1 x.2) r := by
  intro t f past kept
  have hempty : archive.Has {} := by
    obtain rfl | ⟨top, rfl⟩ := harchive
    · exact Archive.has_inMemory
    · exact Archive.has_inDirectory top
  have hkeeps : f.Keeps keep fun p => log t p events (start keep archive target) := by
    simpa using (keeps_start hempty target).through (t := t) events
  refine ⟨hkeeps.ascending p, ?_, hkeeps.list_eq p, fun x hx => ?_, fun b hb => ?_,
    fun b hb => (hkeeps.barrier hb).1, fun {ρ} t' r hr hp => ?_⟩
  · rw [hkeeps.coordinator]
  · obtain ⟨hpartition, hmanifest, hstate⟩ := hkeeps.loads hx
    obtain ⟨b, prepared, target, hsnapshot, hn⟩ := exists_of_mem_log (List.mem_of_mem_drop hx)
    refine ⟨hmanifest, hstate, hpartition, by rw [hn]; rfl, ?_⟩
    rw [hn]
    exact Operator.progressOf_snapshot hsnapshot
  · obtain ⟨hanswer, hsame, hcoordinator, hsaved⟩ := step_of_refuses hb
    exact ⟨hanswer, hsame, hcoordinator, hsaved p⟩
  · obtain rfl := hp
    exact hkeeps.restores t' hr

/-- Two partitions save checkpoint 5. The first then saves 7 and has 6 refused; each keeps one. -/
theorem archive_keeps_newest_of_two :
    let job := Job.wrappingSums ⟨{ shape := .tumbling 10 }, by decide⟩
    let o := (job.take (.record 0 1 1 7)).after (job.start {})
    let all := fun _ : UInt32 => Int64
    let t := operators all all all
    let f := (start (fun _ => 1) .inMemory fun _ => o).through t
      [.barrier 0 ⟨5, 0⟩, .barrier 1 ⟨5, 0⟩, .barrier 0 ⟨7, 0⟩, .barrier 0 ⟨6, 0⟩]
    f.archive.list 0 = .ok [7] ∧ f.archive.list 1 = .ok [5] := by
  intro job o all t f
  have hlist : ∀ p, f.archive.list p = _ := fun p =>
    (archive_keeps_newest (fun _ => 1) (.inl rfl) (fun _ => o) _ p).2.2.1
  refine ⟨(hlist 0).trans (congrArg Except.ok ?_), (hlist 1).trans (congrArg Except.ok ?_)⟩
  · decide +kernel
  · decide +kernel

end Fleet

end Tidemark
