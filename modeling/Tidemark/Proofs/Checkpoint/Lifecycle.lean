import Tidemark.Proofs.Checkpoint.Recovery
import Tidemark.Proofs.Operator.Lifecycle

/-! The lifecycle of an operator under a coordinator. No failure of an archive is fatal, and the
coordinator hands on what its operator answers; so an operator fails in just those orders that
answer a fatal error, wherever it came from, and a coordinator gets nowhere with an operator that
does not run. -/

namespace Tidemark

open Command

/-! ### Archives -/

theorem not_isFatal_of_mapError {ε β : Type} {x : Except ε β} {f : ε → Error} {e : Error}
    (h : x.mapError f = .error e) (hf : ∀ c, ¬ (f c).isFatal) : ¬ e.isFatal := by
  cases x with
  | ok x => cases h
  | error c =>
    obtain rfl := Except.error.inj h
    exact hf c

theorem not_isFatal_ofFault (context : String) (fault : FileFault) :
    ¬ (Error.ofFault context fault).isFatal := Bool.false_ne_true

theorem not_isFatal_decodeAs {β : Type} [Encoding β] {context : String} {bs : Bytes} {e : Error}
    (h : decodeAs context β bs = .error e) : ¬ e.isFatal :=
  not_isFatal_of_mapError h fun _ => Bool.false_ne_true

/-- A failure of a composed reading is a failure of one of its parts. -/
theorem not_isFatal_of_bind {β γ : Type} {x : Except Error β} {f : β → Except Error γ} {e : Error}
    (h : x >>= f = .error e) (hx : ∀ e, x = .error e → ¬ e.isFatal)
    (hf : ∀ y e, f y = .error e → ¬ e.isFatal) : ¬ e.isFatal := by
  cases x with
  | ok y => exact hf y e h
  | error e₁ =>
    obtain rfl := Except.error.inj h
    exact hx e₁ rfl

namespace FileStep

theorem mild_perform (s : FileStep) : Mild (perform s) := by
  intro t e t' h
  unfold perform at h
  cases happly : s.apply t with
  | ok u =>
    rw [happly] at h
    cases h
  | error e₁ =>
    rw [happly] at h
    obtain ⟨rfl, rfl⟩ := EStateM.Result.error.inj h
    cases s with
    | makeDirectories dir => exact not_isFatal_of_mapError happly (not_isFatal_ofFault _)
    | write file content => exact not_isFatal_of_mapError happly (not_isFatal_ofFault _)
    | rename source target => exact not_isFatal_of_mapError happly (not_isFatal_ofFault _)
    | remove file =>
      dsimp only [apply] at happly
      split at happly
      · exact not_isFatal_of_mapError happly (not_isFatal_ofFault _)
      · cases happly
    | removeIfEmpty dir =>
      refine not_isFatal_of_bind happly
        (fun e he => not_isFatal_of_mapError he fun _ => Bool.false_ne_true) fun found e he => ?_
      cases found with
      | nil => exact not_isFatal_of_mapError he (not_isFatal_ofFault _)
      | cons x xs => cases he

end FileStep

namespace DirectoryArchive

theorem mild_performAll (steps : List FileStep) : Mild (performAll steps) :=
  (composes_mild.forM FileStep.mild_perform steps).focus _ _

theorem mild_saveState (s : Share) (state : Bytes) : Mild (saveState s state) :=
  mild_get fun _ => (mild_performAll _).inContext _

theorem mild_saveManifest (m : Manifest) : Mild (saveManifest m) :=
  mild_get fun _ => (mild_performAll _).inContext _

theorem list_not_isFatal {a : DirectoryArchive} {p : UInt32} {e : Error}
    (h : a.list p = .error e) : ¬ e.isFatal := by
  refine not_isFatal_of_bind h (fun e he => ?_) fun _ _ he => nomatch he
  exact not_isFatal_of_bind he (fun e he => not_isFatal_of_mapError he (not_isFatal_ofFault _))
    fun _ _ he => nomatch he

theorem mild_purge (p : UInt32) (keep : ℕ) : Mild (purge p keep) :=
  mild_get fun _ => (mild_ofExcept fun _ he => list_not_isFatal he).bind fun _ =>
    composes_mild.forM (fun _ => mild_performAll _) _

end DirectoryArchive

namespace Archive

variable {a : Archive} {e : Error}

theorem mild_change (f : MemoryArchive → MemoryArchive) {c : Command DirectoryArchive Unit}
    (hc : Mild c) : Mild (change f c) := by
  intro a e a' h
  cases a with
  | memory a => cases h
  | directory d =>
    unfold change at h
    dsimp only at h
    cases hrun : c d with
    | ok x d' =>
      rw [hrun] at h
      cases h
    | error e₁ d' =>
      rw [hrun] at h
      obtain ⟨rfl, rfl⟩ := EStateM.Result.error.inj h
      exact hc d e₁ d' hrun

theorem loadState_not_isFatal {s : Share} (h : a.loadState s = .error e) : ¬ e.isFatal := by
  cases a with
  | memory a =>
    unfold loadState at h
    dsimp only at h
    cases hfound : a.states[s]? with
    | some state =>
      rw [hfound] at h
      cases h
    | none =>
      rw [hfound] at h
      obtain rfl := Except.error.inj h
      exact Bool.false_ne_true
  | directory d => exact not_isFatal_of_mapError h (not_isFatal_ofFault _)

theorem loadManifest_not_isFatal {s : Share} (h : a.loadManifest s = .error e) :
    ¬ e.isFatal := by
  cases a with
  | memory a =>
    unfold loadManifest at h
    dsimp only at h
    cases hfound : a.manifests[s]? with
    | some m =>
      rw [hfound] at h
      cases h
    | none =>
      rw [hfound] at h
      obtain rfl := Except.error.inj h
      exact Bool.false_ne_true
  | directory d =>
    exact not_isFatal_of_bind h
      (fun e he => not_isFatal_of_mapError he (not_isFatal_ofFault _))
      fun _ _ he => not_isFatal_decodeAs he

theorem latest_not_isFatal {p : UInt32} (h : a.latest p = .error e) : ¬ e.isFatal := by
  unfold latest at h
  cases hlist : a.list p with
  | ok ids =>
    rw [hlist] at h
    cases h
  | error e₁ =>
    rw [hlist] at h
    obtain rfl := Except.error.inj h
    cases a with
    | memory a => cases hlist
    | directory d => exact DirectoryArchive.list_not_isFatal hlist

end Archive

/-! ### Coordinators -/

namespace Station

variable {τ β : Type} {status : τ → Status} {t : Target τ} {s : Station τ}

theorem after_onTarget (c : Command τ β) (s : Station τ) :
    (onTarget c).after s = { s with target := c.after s.target } := by
  unfold Command.after
  rw [run_onTarget]
  cases c s.target <;> rfl

theorem answer_onTarget (c : Command τ β) (s : Station τ) :
    (onTarget c).answer s = c.answer s.target := by
  unfold Command.answer
  rw [run_onTarget]
  cases c s.target <;> rfl

theorem guarded_onTarget {c : Command τ β} (hc : Guarded status c) :
    Guarded (status ·.target) (onTarget c) :=
  hc.focus (fun _ => rfl) fun _ _ => rfl

theorem guarded_onArchive {c : Command Archive β} (hc : Mild c) :
    Guarded (status ·.target) (onArchive c : Command (Station τ) β) :=
  (hc.focus _ _).guarded (retains_focus c fun _ _ => rfl)

theorem guarded_ofExcept {x : Except Error β} (h : ∀ e, x = .error e → ¬ e.isFatal) :
    Guarded (status ·.target) (Command.ofExcept x : Command (Station τ) β) :=
  (mild_ofExcept h).guarded (retains_ofExcept x)

theorem guarded_checkNewer (id : UInt64) :
    Guarded (status ·.target) (checkNewer id : Command (Station τ) Unit) := by
  refine guarded_get fun s => ?_
  cases s.coordinator.last with
  | none => exact guarded_pure ()
  | some last =>
    refine composes_guarded.ite _ ?_ (guarded_pure ())
    exact guarded_ofExcept (x := .error (.staleBarrier id last)) fun e he =>
      Except.error.inj he ▸ Bool.false_ne_true

theorem guarded_takeCheckpoint (hprepare : Guarded status t.prepare)
    (hsnapshot : Guarded status t.snapshot) (b : Barrier) :
    Guarded (status ·.target) (takeCheckpoint t b) := by
  refine (guarded_checkNewer b.id).bind fun _ => (guarded_onTarget hprepare).bind fun _ => ?_
  refine (guarded_onTarget hsnapshot).bind fun state => guarded_get fun s => ?_
  refine (guarded_onArchive (Archive.mild_change _ (DirectoryArchive.mild_saveState _ _))).bind
    fun _ => ?_
  refine (guarded_onArchive (Archive.mild_change _ (DirectoryArchive.mild_saveManifest _))).bind
    fun _ => ?_
  exact (guarded_onArchive (Archive.mild_change _ (DirectoryArchive.mild_purge _ _))).bind
    fun _ _ => rfl

theorem guarded_restoreFrom (hrestore : ∀ bs, Guarded status (t.restore bs)) (id : UInt64) :
    Guarded (status ·.target) (restoreFrom t id) := by
  refine guarded_get fun s => ?_
  refine (guarded_ofExcept fun _ he => Archive.loadManifest_not_isFatal he).bind fun n => ?_
  refine (guarded_ofExcept fun _ he => Archive.loadState_not_isFatal he).bind fun state => ?_
  exact (guarded_onTarget ((hrestore state).inContext _)).bind fun _ _ => rfl

theorem guarded_restoreLatest (hrestore : ∀ bs, Guarded status (t.restore bs)) :
    Guarded (status ·.target) (restoreLatest t) := by
  refine guarded_get fun s => ?_
  refine (guarded_ofExcept fun _ he => Archive.latest_not_isFatal he).bind fun newest => ?_
  cases newest with
  | none => exact guarded_pure none
  | some id => exact composes_guarded.map (guarded_restoreFrom hrestore id) some

/-! ### Targets that refuse -/

variable {e : Error}

/-- A target that refuses to prepare has no checkpoint taken. -/
theorem takeCheckpoint_refused (h : t.prepare s.target = .error e s.target) (b : Barrier) :
    takeCheckpoint t b s = .error e s ∨
      ∃ last, s.coordinator.last = some last ∧ b.id ≤ last ∧
        takeCheckpoint t b s = .error (.staleBarrier b.id last) s := by
  unfold takeCheckpoint
  rw [run_bind]
  obtain ⟨_, hnewer⟩ | ⟨last, hlast, hle, hstale⟩ := checkNewer_cases b.id s
  · rw [hnewer]
    dsimp only
    rw [run_bind, run_onTarget, h]
    exact .inl rfl
  · rw [hstale]
    exact .inr ⟨last, hlast, hle, rfl⟩

/-- A target that refuses to start over is restored from nothing. -/
theorem restoreFrom_refused (h : ∀ bs, t.restore bs s.target = .error e s.target) (id : UInt64) :
    ∃ e', restoreFrom t id s = .error e' s := by
  unfold restoreFrom
  rw [run_get_bind, run_bind]
  cases hmanifest : s.archive.loadManifest ⟨id, s.coordinator.partition⟩ with
  | error e' => exact ⟨e', rfl⟩
  | ok n =>
    dsimp only [Command.ofExcept]
    rw [run_bind]
    cases hstate : s.archive.loadState ⟨id, s.coordinator.partition⟩ with
    | error e' => exact ⟨e', rfl⟩
    | ok state =>
      dsimp only [Command.ofExcept]
      rw [run_bind, run_onTarget, Command.inContext, Command.mapError, h]
      exact ⟨_, rfl⟩

/-- Nor is it restored from the newest checkpoint. -/
theorem restoreLatest_refused (h : ∀ bs, t.restore bs s.target = .error e s.target) :
    restoreLatest t s = .ok none s ∨ ∃ e', restoreLatest t s = .error e' s := by
  cases hlatest : s.archive.latest s.coordinator.partition with
  | error e' =>
    refine .inr ⟨e', ?_⟩
    unfold restoreLatest
    rw [run_get_bind, run_bind, hlatest]
    rfl
  | ok newest =>
    cases newest with
    | none => exact .inl (restoreLatest_of_none hlatest t)
    | some id =>
      obtain ⟨e', hrefused⟩ := restoreFrom_refused h id
      refine .inr ⟨e', ?_⟩
      rw [restoreLatest_of_some hlatest, map_eq_pure_bind, run_bind, hrefused]

end Station

/-! ### Runs -/

/-- What an operator and its coordinator are asked to do. -/
inductive Order (κ ν : Type) where
  | call (c : Call κ ν)
  | barrier (b : Barrier)
  | restoreFrom (id : UInt64)
  | restoreLatest

namespace Job

open Operator Station

variable {κ ν α ω : Type} [Encoding κ] [Encoding α] (job : Job κ ν α ω)
  {s : Station (Operator κ α ω)}

def obey : Order κ ν → Command (Station (Operator κ α ω)) Unit
  | .call c => (fun _ => ()) <$> onTarget (job.call c)
  | .barrier b => (fun _ => ()) <$> takeCheckpoint (target κ α ω) b
  | .restoreFrom id => (fun _ => ()) <$> Station.restoreFrom (target κ α ω) id
  | .restoreLatest => (fun _ => ()) <$> Station.restoreLatest (target κ α ω)

/-- The station after a list of orders, whatever was answered. -/
def serve (s : Station (Operator κ α ω)) (orders : List (Order κ ν)) : Station (Operator κ α ω) :=
  orders.foldl (fun s r => (job.obey r).after s) s

theorem guarded_obey {r : Order κ ν} (hr : r ≠ .call .close) :
    Guarded (·.target.status) (job.obey r : Command (Station (Operator κ α ω)) Unit) := by
  have hrestore : ∀ bs, Guarded status ((target κ α ω).restore bs) := fun bs =>
    (unmoved_status.runs_restore bs).guarded
  cases r with
  | call c =>
    have hc : c ≠ .close := fun h => hr (h ▸ rfl)
    exact composes_guarded.map (guarded_onTarget (job.guarded_call hc)) _
  | barrier b =>
    exact composes_guarded.map (guarded_takeCheckpoint unmoved_status.runs_prepare.guarded
      (job.performs_retains unmoved_status).runs_snapshot.guarded b) _
  | restoreFrom id => exact composes_guarded.map (guarded_restoreFrom hrestore id) _
  | restoreLatest => exact composes_guarded.map (guarded_restoreLatest hrestore) _

/-- Orders to an operator that does not run change nothing. -/
theorem after_obey_of_ne (h : s.target.status ≠ .running) {r : Order κ ν}
    (hr : r ≠ .call .close) : (job.obey r).after s = s := by
  have hprepare : (target κ α ω).prepare s.target = .error s.target.status.refusal s.target :=
    unmoved_status.runs_prepare.refused h
  have hrestore : ∀ bs, (target κ α ω).restore bs s.target =
      .error s.target.status.refusal s.target :=
    fun bs => (unmoved_status.runs_restore bs).refused h
  cases r with
  | call c =>
    have hc : c ≠ .close := fun h => hr (h ▸ rfl)
    rw [obey, after_map, after_onTarget, Command.after, job.call_refused hc h]
  | barrier b =>
    rw [obey, after_map, Command.after]
    obtain hrefused | ⟨last, _, _, hstale⟩ := takeCheckpoint_refused hprepare b
    · rw [hrefused]
    · rw [hstale]
  | restoreFrom id =>
    obtain ⟨e, hrefused⟩ := restoreFrom_refused hrestore id
    rw [obey, after_map, Command.after, hrefused]
  | restoreLatest =>
    rw [obey, after_map, Command.after]
    obtain hnone | ⟨e, hrefused⟩ := restoreLatest_refused hrestore
    · rw [hnone]
    · rw [hrefused]

theorem after_obey_close (s : Station (Operator κ α ω)) :
    (job.obey (.call .close)).after s = { s with target := close.after s.target } := by
  rw [obey, after_map, after_onTarget, Job.call, after_map]

/-- Closing is always carried out. -/
theorem answer_obey_close (s : Station (Operator κ α ω)) :
    (job.obey (.call .close)).answer s = .ok () := by
  rw [obey, answer_map, answer_onTarget, Job.call, answer_map, answer_close]
  rfl

/-- An operator fails in just those orders that answer a fatal error. -/
theorem failed_iff (s : Station (Operator κ α ω)) (r : Order κ ν) :
    s.target.status = .running ∧ ((job.obey r).after s).target.status = .failed ↔
      ∃ e, (job.obey r).answer s = .error e ∧ e.isFatal := by
  by_cases hr : r = .call .close
  · rw [hr, after_obey_close, answer_obey_close]
    refine iff_of_false ?_ fun ⟨_, he, _⟩ => nomatch he
    rintro ⟨-, h⟩
    rw [status_after_close] at h
    cases h
  · exact (job.guarded_obey hr).failed_iff s

/-- An operator that is closed is empty, before every order and after it. -/
theorem emptied_obey (h : s.target.status = .closed → s.target.Emptied) (r : Order κ ν)
    (hclosed : ((job.obey r).after s).target.status = .closed) :
    ((job.obey r).after s).target.Emptied := by
  by_cases hr : r = .call .close
  · obtain ⟨o', hclose, -, hempty, -⟩ := close_emptied h
    rw [hr, after_obey_close, Command.after, hclose]
    exact hempty
  · by_cases hrun : s.target.status = .running
    · obtain hstatus | hstatus := (job.guarded_obey hr).of_running hrun <;>
      · rw [hstatus] at hclosed
        cases hclosed
    · rw [job.after_obey_of_ne hrun hr] at hclosed ⊢
      exact h hclosed

theorem emptied_serve (orders : List (Order κ ν))
    (h : s.target.status = .closed → s.target.Emptied)
    (hclosed : (job.serve s orders).target.status = .closed) :
    (job.serve s orders).target.Emptied := by
  induction orders generalizing s with
  | nil => exact h hclosed
  | cons r orders ih => exact ih (job.emptied_obey h r) hclosed

/-- Closed is closed for ever: no order changes anything any more. -/
theorem serve_of_closed (h : s.target.status = .closed) (orders : List (Order κ ν)) :
    job.serve s orders = s := by
  induction orders with
  | nil => rfl
  | cons r orders ih =>
    have hsame : (job.obey r).after s = s := by
      by_cases hr : r = .call .close
      · rw [hr, after_obey_close, Command.after, close_of_closed h]
      · exact job.after_obey_of_ne (by simp [h]) hr
    show job.serve ((job.obey r).after s) orders = s
    rw [hsame, ih]

/-- The operator of a station fails for good, and is emptied for good. -/
structure FailStop (s : Station (Operator κ α ω)) : Prop where
  /-- It fails in just those orders that answer a fatal error, at whatever depth that arose. -/
  fails : ∀ r : Order κ ν,
    s.target.status = .running ∧ ((job.obey r).after s).target.status = .failed ↔
      ∃ e, (job.obey r).answer s = .error e ∧ e.isFatal
  /-- Failed or closed, it refuses every call but closing, and stays as it is. -/
  refuses : s.target.status ≠ .running → ∀ c : Call κ ν, c ≠ .close →
    job.call c s.target = .error s.target.status.refusal s.target
  /-- No checkpoint is taken of it then. -/
  barrier : s.target.status ≠ .running → ∀ b : Barrier,
    takeCheckpoint (target κ α ω) b s = .error s.target.status.refusal s ∨
      ∃ last, s.coordinator.last = some last ∧ b.id ≤ last ∧
        takeCheckpoint (target κ α ω) b s = .error (.staleBarrier b.id last) s
  /-- Nor does it start over from one. -/
  restore : s.target.status ≠ .running →
    (∀ id, ∃ e, restoreFrom (target κ α ω) id s = .error e s) ∧
      (restoreLatest (target κ α ω) s = .ok none s ∨
        ∃ e, restoreLatest (target κ α ω) s = .error e s)
  /-- Whatever its status, closing empties it without emitting, and nothing opens it again. -/
  close : ∃ o', Operator.close s.target = .ok () o' ∧ o'.status = .closed ∧ o'.Emptied ∧
    o'.collector = s.target.collector ∧
      ∀ later : List (Order κ ν), job.serve { s with target := o' } later = { s with target := o' }

/-- The lifecycle is fail-stop, wherever any orders have led a station whose operator once ran: with
whatever aggregate, whatever the store and the collector refuse, and whatever is in the archive. -/
theorem failStop_of_serve (h : s.target.status = .running) (orders : List (Order κ ν)) :
    job.FailStop (job.serve s orders) := by
  have hempty := job.emptied_serve orders (s := s) fun hclosed => by
    rw [h] at hclosed
    cases hclosed
  generalize job.serve s orders = s' at hempty
  refine ⟨job.failed_iff s', fun hne c hc => job.call_refused hc hne, fun hne b => ?_,
    fun hne => ?_, ?_⟩
  · exact takeCheckpoint_refused (unmoved_status.runs_prepare.refused hne) b
  · have hrestore : ∀ bs, (target κ α ω).restore bs s'.target =
        .error s'.target.status.refusal s'.target :=
          fun bs => (unmoved_status.runs_restore bs).refused hne
    exact ⟨restoreFrom_refused hrestore, restoreLatest_refused hrestore⟩
  · obtain ⟨o', hclose, hclosed, hemptied, hcollector⟩ := close_emptied hempty
    exact ⟨o', hclose, hclosed, hemptied, hcollector, fun later =>
      job.serve_of_closed (s := { s' with target := o' }) hclosed later⟩

/-- A buffer for one entry spills at the second key, and the second of its writes is refused. The
operator has failed: it fires nothing, and no checkpoint is taken of it. -/
theorem failStop_second_write :
    let job : Job Int64 Int64 Int64 Int64 :=
      ⟨⟨{ shape := .tumbling 10 }, by decide⟩, .wrappingSum, ⟨{ capacity := 1 }, by decide⟩⟩
    let s₀ : Station (Operator Int64 Int64 Int64) :=
      ⟨⟨0, 3, none⟩, .inMemory, job.start {} { script := [false, false, false, true] }⟩
    let s := job.serve s₀ [.call (.input (.record 0 1 1 7)), .call (.input (.record 0 2 1 8))]
    s₀.target.status = .running ∧ s.target.status = .failed ∧
      job.call (.input (.advance 9)) s.target = .error .halted s.target ∧
      takeCheckpoint (target Int64 Int64 Int64) ⟨5, 0⟩ s = .error .halted s := by
  intro job s₀ s
  have hrun : s₀.target.status = .running := rfl
  have hfailed : s.target.status = .failed := by decide +kernel
  have hlast : s.coordinator.last = none := by decide +kernel
  have hne : s.target.status ≠ .running := by simp [hfailed]
  have hrefusal : s.target.status.refusal = .halted := congrArg Status.refusal hfailed
  have hstop : job.FailStop s := failStop_of_serve job hrun _
  have hcall := hstop.refuses hne (.input (.advance 9)) (by nofun)
  have hbarrier := hstop.barrier hne ⟨5, 0⟩
  rw [hrefusal] at hcall hbarrier
  refine ⟨hrun, hfailed, hcall, hbarrier.resolve_right ?_⟩
  rintro ⟨last, hsome, -⟩
  exact nomatch hlast.symm.trans hsome

end Job

end Tidemark
