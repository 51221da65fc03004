import Tidemark.Proofs.Operator.Composition
import Tidemark.Proofs.Operator.Running

/-! The lifecycle of an operator. It runs until a call fails for good or closes it. From then on
every call but closing is refused and changes nothing; closing empties it, and it stays closed. -/

namespace Tidemark

open Command

/-! ### Commands and the status -/

/-- `c` leaves the status as it is, unless it fails for good: then what ran has failed. -/
def Command.Guarded {σ β : Type} (status : σ → Status) (c : Command σ β) : Prop := ∀ s,
  match c s with
  | .ok _ s' => status s' = status s
  | .error e s' =>
    if e.isFatal then status s = .running ∧ status s' = .failed else status s' = status s

namespace Command

variable {σ τ β γ : Type} {status : σ → Status} {c : Command σ β} {s : σ}

theorem guarded_pure (x : β) : Guarded status (pure x) := fun _ => rfl

theorem Guarded.bind {k : β → Command σ γ} (hc : Guarded status c)
    (hk : ∀ x, Guarded status (k x)) : Guarded status (c >>= k) := by
  intro s
  have hfirst := hc s
  rw [run_bind]
  cases hrun : c s with
  | error e s₁ =>
    rw [hrun] at hfirst
    exact hfirst
  | ok x s₁ =>
    rw [hrun] at hfirst
    have hthen := hk x s₁
    dsimp only at hfirst ⊢
    rwa [hfirst] at hthen

theorem composes_guarded : Composes (Guarded status) := ⟨guarded_pure, Guarded.bind⟩

theorem guarded_get {k : σ → Command σ β} (h : ∀ s, Guarded status (k s)) :
    Guarded status (get >>= k) := fun s => h s s

/-- What neither changes the status nor fails for good. -/
theorem Mild.guarded (hc : Mild c) (hstatus : Retains status c) : Guarded status c := by
  intro s
  have hs := hstatus s
  unfold after at hs
  cases hrun : c s with
  | ok x s' =>
    rw [hrun] at hs
    exact hs
  | error e s' =>
    rw [hrun] at hs
    dsimp only
    rw [if_neg (hc s e s' hrun)]
    exact hs

theorem Guarded.inContext (hc : Guarded status c) (context : String) :
    Guarded status (c.inContext context) := by
  intro s
  have hs := hc s
  unfold Command.inContext mapError
  cases hrun : c s with
  | ok x s' =>
    rw [hrun] at hs
    exact hs
  | error e s' =>
    rw [hrun] at hs
    exact hs

theorem Guarded.focus {status' : τ → Status} {c : Command τ β} (hc : Guarded status' c)
    {part : σ → τ} {replace : σ → τ → σ} (hpart : ∀ s, status s = status' (part s))
    (hreplace : ∀ s t, status (replace s t) = status' t) :
    Guarded status (c.focus part replace) := by
  intro s
  have hs := hc (part s)
  unfold Command.focus
  cases hrun : c (part s) with
  | ok x t =>
    rw [hrun] at hs
    exact (hreplace s t).trans (hs.trans (hpart s).symm)
  | error e t =>
    rw [hrun] at hs
    dsimp only at hs ⊢
    rw [hreplace, hpart s]
    exact hs

/-- Running turns to failed in those commands that fail for good, and in no others. -/
theorem Guarded.failed_iff (hc : Guarded status c) (s : σ) :
    status s = .running ∧ status (c.after s) = .failed ↔
      ∃ e, c.answer s = .error e ∧ e.isFatal := by
  have hs := hc s
  have hboth : ¬ (status s = .running ∧ status s = .failed) := by
    rintro ⟨h, h'⟩
    rw [h] at h'
    cases h'
  unfold after answer
  cases hrun : c s with
  | ok x s' =>
    rw [hrun] at hs
    dsimp only at hs ⊢
    rw [hs]
    exact iff_of_false hboth (by simp)
  | error e s' =>
    rw [hrun] at hs
    dsimp only at hs ⊢
    by_cases he : e.isFatal
    · rw [if_pos he] at hs
      exact iff_of_true hs ⟨e, rfl, he⟩
    · rw [if_neg he] at hs
      rw [hs]
      refine iff_of_false hboth ?_
      rintro ⟨e', he', hfatal⟩
      exact he (Except.error.inj he' ▸ hfatal)

/-- Without a fatal failure the status stands. -/
theorem Guarded.stands (hc : Guarded status c) (h : ∀ e, c.answer s = .error e → ¬ e.isFatal) :
    status (c.after s) = status s := by
  have hs := hc s
  unfold answer at h
  unfold after
  cases hrun : c s with
  | ok x s' =>
    rw [hrun] at hs
    exact hs
  | error e s' =>
    rw [hrun] at hs h
    dsimp only at hs
    rwa [if_neg (h e rfl)] at hs

/-- What runs goes on running, or fails. -/
theorem Guarded.of_running (hc : Guarded status c) (h : status s = .running) :
    status (c.after s) = .running ∨ status (c.after s) = .failed := by
  by_cases hfatal : ∃ e, c.answer s = .error e ∧ e.isFatal
  · exact .inr ((hc.failed_iff s).2 hfatal).2
  · refine .inl ((hc.stands fun e he hf => hfatal ⟨e, he, hf⟩).trans h)

end Command

/-! ### Calls of an operator -/

theorem Status.refusal_not_isFatal (s : Status) : ¬ s.refusal.isFatal := by
  cases s <;> exact Bool.false_ne_true

namespace Operator

variable {κ α ω β τ : Type} {o : Operator κ α ω}
  {P : ∀ {β : Type}, Command (Operator κ α ω) β → Prop} {view : Operator κ α ω → τ}

/-- Nothing that a step does touches what `view` shows. -/
structure Unmoved (view : Operator κ α ω → τ) : Prop where
  table : ∀ o table, view { o with table } = view o
  emit : ∀ e, Retains view (emit e)
  change : ∀ o agenda lastTick forwarded drops,
    view { o with agenda, lastTick, forwarded, drops } = view o

theorem unmoved_status : Unmoved (status : Operator κ α ω → Status) where
  table _ _ := rfl
  emit _ := retains_focus _ fun _ _ => rfl
  change _ _ _ _ _ := rfl

theorem Unmoved.onTable (h : Unmoved view) (c : Command (Table α) β) :
    Retains view (onTable c) := retains_focus c h.table

/-- A step that keeps the status is a guarded call. -/
theorem guarded_whileRunning {c : Command (Operator κ α ω) β} (hc : Retains status c) :
    Guarded status (whileRunning c) := by
  intro o
  by_cases hrun : o.status = .running
  · have hstep := hc o
    unfold Command.after at hstep
    rw [whileRunning_eq c hrun]
    cases hres : c o with
    | ok x o' =>
      rw [hres] at hstep
      exact hstep
    | error e o' =>
      rw [hres] at hstep
      dsimp only
      split
      · exact ⟨hrun, rfl⟩
      · exact hstep
  · rw [whileRunning_of_ne c hrun]
    dsimp only
    rw [if_neg o.status.refusal_not_isFatal]

theorem Runs.guarded {c : Command (Operator κ α ω) β} (hc : Runs (Retains status) c) :
    Guarded status c := by
  induction hc with
  | step hc => exact guarded_whileRunning hc
  | map _ f ih => exact composes_guarded.map ih f

/-- An operator that does not run refuses a call and stays as it is. -/
theorem Runs.refused {c : Command (Operator κ α ω) β} (hc : Runs @P c) (h : o.status ≠ .running) :
    c o = .error o.status.refusal o := by
  induction hc with
  | step _ => exact whileRunning_of_ne _ h
  | map _ f ih =>
    rw [map_eq_pure_bind, run_bind, ih]

/-- A call does not touch what neither its step nor a failure touches. -/
theorem Runs.retains {c : Command (Operator κ α ω) β} (hc : Runs (Retains view) c)
    (hfailed : ∀ o : Operator κ α ω, view { o with status := .failed } = view o) :
    Retains view c := by
  induction hc with
  | @step _ c hc =>
    intro o
    by_cases hrun : o.status = .running
    · have hstep := hc o
      unfold Command.after at hstep ⊢
      rw [whileRunning_eq c hrun]
      cases hres : c o with
      | ok x o' =>
        rw [hres] at hstep
        exact hstep
      | error e o' =>
        rw [hres] at hstep
        dsimp only
        split
        · exact (hfailed o').trans hstep
        · exact hstep
    · rw [after_whileRunning_of_ne c hrun]
  | map _ f ih => exact composes_retains.map ih f

theorem Unmoved.runs_prepare [Encoding α] (h : Unmoved view) :
    Runs (Retains view) (prepare : Command (Operator κ α ω) Unit) := .step (h.onTable _)

theorem Unmoved.runs_restore [Encoding α] (h : Unmoved view) (bs : Bytes) :
    Runs (Retains view) (restore bs : Command (Operator κ α ω) Unit) := by
  refine .step ((retains_ofExcept _).bind fun i => ?_)
  refine (h.onTable (Table.restore i.state)).bind fun _ => ?_
  refine Retains.bind (fun o => h.change o _ _ _ _) fun _ => ?_
  exact (h.onTable Table.entries).bind fun _ o => h.change o _ _ _ _

/-- Nothing waits and nothing is kept. -/
structure Emptied (o : Operator κ α ω) : Prop where
  queue : o.agenda.queue = ∅
  index : o.agenda.index = ∅
  buffer : o.table.buffer = ∅
  cells : o.table.store.cells = ∅

/-- Closing empties an operator, whatever its status was, and emits nothing. -/
theorem close_emptied (h : o.status = .closed → o.Emptied) :
    ∃ o', close o = .ok () o' ∧ o'.status = .closed ∧ o'.Emptied ∧ o'.collector = o.collector := by
  by_cases hclosed : o.status = .closed
  · exact ⟨o, close_of_closed hclosed, hclosed, h hclosed, rfl⟩
  · exact ⟨_, close_of_ne hclosed, rfl, ⟨rfl, rfl, rfl, rfl⟩, rfl⟩

theorem answer_close (o : Operator κ α ω) : close.answer o = .ok () := by
  unfold Command.answer
  by_cases hclosed : o.status = .closed
  · rw [close_of_closed hclosed]
  · rw [close_of_ne hclosed]

end Operator

namespace Job

open Operator

variable {κ ν α ω τ : Type} [Encoding κ] [Encoding α] (job : Job κ ν α ω) {o : Operator κ α ω}
  {view : Operator κ α ω → τ}

omit [Encoding κ] in
theorem performs_retains (h : Unmoved view) : job.Performs SameClocks (Retains view) where
  toComposes := composes_retains
  agenda hsame := hsame.agenda
  ofExcept := retains_ofExcept
  emit := h.emit
  read hk o := by
    obtain ⟨c, hc, hnext⟩ := hk o
    unfold Command.after
    rw [run_get_bind, hnext o ⟨rfl, rfl, rfl⟩]
    exact hc o
  change _ _ _ _ o := h.change o _ _ _ _
  mergeSession _ _ := h.onTable _
  add _ _ _ := h.onTable _
  finish _ := h.onTable _
  discard _ := h.onTable _
  discardSession _ := h.onTable _
  flush := h.onTable _
  snapshot := h.onTable _

/-- Every call but closing waits for a running operator. -/
theorem runs_retains (h : Unmoved view) {c : Call κ ν} (hc : c ≠ .close) :
    Runs (Retains view) (job.call c : Command (Operator κ α ω) Answer) := by
  cases c with
  | restore bs => exact (h.runs_restore bs).map _
  | close => exact absurd rfl hc
  | _ => exact (job.performs_retains h).runs_call (by nofun) (by nofun)

theorem guarded_call {c : Call κ ν} (hc : c ≠ .close) :
    Guarded status (job.call c : Command (Operator κ α ω) Answer) :=
  (job.runs_retains unmoved_status hc).guarded

theorem call_refused {c : Call κ ν} (hc : c ≠ .close) (h : o.status ≠ .running) :
    job.call c o = .error o.status.refusal o := (job.runs_retains unmoved_status hc).refused h

end Job

end Tidemark
