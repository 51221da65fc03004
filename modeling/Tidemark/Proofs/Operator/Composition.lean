import Tidemark.Proofs.Operator.Calls

/-! The calls of a job, taken apart. When a property of commands is kept by composition, and the
commands on the table, the emissions and the changes of the agenda and of the marks have it, then it
is a property of what a call does while the operator runs. Starting over and closing stand apart:
starting over need not find the table in order, and closing does not wait for a running operator. -/

namespace Tidemark

open Command

namespace Operator

variable {κ α ω : Type}

/-- The operators have the same agenda and have seen the same clock and watermarks. -/
structure SameClocks (o₁ o₂ : Operator κ α ω) : Prop where
  agenda : o₁.agenda = o₂.agenda
  lastTick : o₁.lastTick = o₂.lastTick
  forwarded : o₁.forwarded = o₂.forwarded

theorem SameClocks.progress {o₁ o₂ : Operator κ α ω} (h : SameClocks o₁ o₂) :
    o₁.progress = o₂.progress := congrArg Agenda.progress h.agenda

/-- Calls that run a step with the property `P` while the operator runs. -/
inductive Runs (P : ∀ {β : Type}, Command (Operator κ α ω) β → Prop) :
    ∀ {β : Type}, Command (Operator κ α ω) β → Prop
  | step {β : Type} {c : Command (Operator κ α ω) β} (h : P c) : Runs @P (whileRunning c)
  | map {β γ : Type} {c : Command (Operator κ α ω) β} (h : Runs @P c) (f : β → γ) :
    Runs @P (f <$> c)

end Operator

namespace Job

open Operator

variable {κ ν α ω β : Type} [Encoding κ] [Encoding α] {job : Job κ ν α ω}
  {R : Operator κ α ω → Operator κ α ω → Prop}
  {P : ∀ {β : Type}, Command (Operator κ α ω) β → Prop}

/-- The parts of which the calls of `job` are composed have the property `P`, which takes operators
that are related by `R` for the same. -/
structure Performs (job : Job κ ν α ω) (R : Operator κ α ω → Operator κ α ω → Prop)
    (P : ∀ {β : Type}, Command (Operator κ α ω) β → Prop) : Prop extends Composes P where
  agenda : ∀ {o₁ o₂}, R o₁ o₂ → o₁.agenda = o₂.agenda
  ofExcept : ∀ {β : Type} (x : Except Error β), P (Command.ofExcept x)
  emit : ∀ e, P (emit e)
  /-- At related operators, what is done next is the same. -/
  read : ∀ {β : Type} {k : Operator κ α ω → Command (Operator κ α ω) β},
    (∀ o₁, ∃ c, P c ∧ ∀ o₂, R o₁ o₂ → k o₂ o₂ = c o₂) → P (get >>= k)
  change : ∀ (f : Agenda → Agenda) (tick forward : Timestamp → Timestamp)
    (mark : DropMeter → DropMeter),
    P (modify fun o => { o with
      agenda := f o.agenda, lastTick := tick o.lastTick, forwarded := forward o.forwarded,
      drops := mark o.drops })
  mergeSession : ∀ key candidate,
    P (onTable (Table.mergeSession job.aggregate job.policy.val.firesAt key candidate))
  add : ∀ s fireAt v, P (onTable (Table.add job.aggregate s fireAt v))
  finish : ∀ s, P (onTable (Table.finish job.aggregate s))
  discard : ∀ s, P (onTable (Table.discard s))
  discardSession : ∀ s, P (onTable (Table.discardSession s))
  flush : P (onTable Table.flush)
  snapshot : P (onTable Table.snapshot)

namespace Performs

variable (hP : job.Performs R P)

include hP

omit [Encoding κ] in
theorem progress {o₁ o₂ : Operator κ α ω} (h : R o₁ o₂) : o₁.progress = o₂.progress :=
  congrArg Agenda.progress (hP.agenda h)

omit [Encoding κ] in
theorem schedule (f : Agenda → Agenda) : P (modify fun o => { o with agenda := f o.agenda }) :=
  hP.change f id id id

omit [Encoding κ] in
theorem ask {k : Operator κ α ω → Command (Operator κ α ω) β} (hk : ∀ o, P (k o))
    (hsame : ∀ o₁ o₂, R o₁ o₂ → k o₁ = k o₂) : P (get >>= k) :=
  hP.read fun o₁ => ⟨k o₁, hk o₁, fun o₂ h => by rw [hsame o₁ o₂ h]⟩

omit [Encoding κ] in
theorem accumulate (key : Bytes) (v : ν) (candidate : Window) :
    P (job.accumulate key v candidate) := by
  have hsettle : P (job.settle key candidate) := by
    unfold Job.settle
    refine hP.ite _ (hP.bind (hP.mergeSession key candidate) fun m => ?_) (hP.pure candidate)
    refine hP.bind ?_ fun _ => hP.pure m.window
    exact hP.schedule fun a => m.retired.foldl (fun a w => (a.cancel ⟨key, w⟩).2) a
  refine hP.bind hsettle fun w => hP.bind (hP.add ⟨key, w⟩ _ v) fun _ => ?_
  exact hP.schedule fun a => (a.register ⟨key, w⟩ (job.policy.val.firesAt w)).2

theorem fire (t : Timer) : P (job.fire t) := by
  have hlast : P (do
      onTable (Table.discard t.slot)
      if job.policy.val.merges then onTable (Table.discardSession t.slot)) :=
    hP.bind (hP.discard t.slot) fun _ => hP.ite _ (hP.discardSession t.slot) (hP.pure ())
  refine hP.bind (hP.finish t.slot) fun found => ?_
  cases found with
  | none => exact hlast
  | some value => exact hP.bind (hP.ofExcept _) fun key => hP.bind (hP.emit _) fun _ => hlast

theorem reach (p : Timestamp) : P (job.reach p) := by
  refine hP.ask (fun o => hP.ite _ (hP.bind hP.flush fun _ => ?_) (hP.pure ()))
    fun o₁ o₂ h => by rw [hP.progress h]
  -- the agenda is read, written and walked through; agendas that are the same have the same timers
  refine hP.read fun o₁ => ⟨_, hP.bind (hP.schedule fun a => (a.advance p).2) fun _ =>
    hP.forM hP.fire (o₁.agenda.advance p).1, fun o₂ h => ?_⟩
  rw [hP.agenda h]
  rfl

theorem runs_feed (now : Timestamp) (key : κ) (t : Timestamp) (v : ν) :
    Runs P (job.feed now key t v) := by
  refine .step ?_
  dsimp only
  cases job.policy.val.windowsAt (job.stamp now t) with
  | none => exact hP.ofExcept (.error _)
  | some around =>
    refine hP.read fun o₁ => ?_
    cases hlive : around.filter (!job.policy.val.isLate · o₁.progress) with
    | nil =>
      refine ⟨_, hP.bind (hP.change id id id (·.mark now)) fun _ => hP.pure .dropped,
        fun o₂ h => ?_⟩
      rw [← hP.progress h, hlive]
      rfl
    | cons w ws =>
      refine ⟨_, hP.bind (hP.forM (hP.accumulate (encode key) v) (w :: ws)) fun _ =>
        hP.pure .accepted, fun o₂ h => ?_⟩
      rw [← hP.progress h, hlive]

end Performs

namespace Performs

variable (hP : job.Performs SameClocks P)

include hP

theorem runs_watermark (w : Watermark) : Runs P (job.watermark w) := by
  refine .step ?_
  cases job.settings.val.domain with
  | event =>
    refine hP.ask (fun o => ?_) fun o₁ o₂ h => by rw [h.progress]
    exact hP.ite _ (hP.bind (hP.reach w.timestamp) fun _ => hP.pure w) (hP.pure _)
  | processing =>
    refine hP.read fun o₁ => ?_
    by_cases hnews : o₁.forwarded < w.timestamp
    · refine ⟨_, hP.bind (hP.change id id (fun _ => w.timestamp) id) fun _ => hP.pure w,
        fun o₂ h => ?_⟩
      rw [h.forwarded] at hnews
      dsimp only
      rw [if_pos hnews]
      rfl
    · refine ⟨_, hP.pure ⟨o₁.forwarded⟩, fun o₂ h => ?_⟩
      rw [h.forwarded] at hnews ⊢
      dsimp only
      rw [if_neg hnews]

theorem runs_tick (t : Timestamp) : Runs P (job.tick t) := by
  refine .step ?_
  cases job.settings.val.domain with
  | event => exact hP.pure ()
  | processing =>
    refine hP.read fun o₁ => ?_
    by_cases hnews : o₁.lastTick < t
    · refine ⟨_, hP.bind (hP.change id (fun _ => t) id id) fun _ => hP.reach t, fun o₂ h => ?_⟩
      rw [h.lastTick] at hnews
      rw [if_pos hnews]
      rfl
    · refine ⟨_, hP.pure (), fun o₂ h => ?_⟩
      rw [h.lastTick] at hnews
      rw [if_neg hnews]

omit [Encoding κ] in
theorem runs_snapshot : Runs P (Operator.snapshot : Command (Operator κ α ω) Bytes) := by
  refine .step (hP.bind hP.snapshot fun state => ?_)
  refine hP.ask (fun o => hP.pure _) fun o₁ o₂ h => ?_
  rw [h.progress, h.lastTick, h.forwarded]

/-- Every call but starting over and closing runs a step that has the property. -/
theorem runs_call {c : Call κ ν} (hrestore : ∀ bs, c ≠ .restore bs) (hclose : c ≠ .close) :
    Runs P (job.call c) := by
  cases c with
  | input i =>
    cases i with
    | record now key t v => exact (hP.runs_feed now key t v).map _
    | advance p => exact (Runs.step (hP.reach p)).map _
    | watermark w => exact (hP.runs_watermark w).map _
  | tick t => exact (hP.runs_tick t).map _
  | prepare => exact (Runs.step hP.flush).map _
  | snapshot => exact hP.runs_snapshot.map _
  | restore bs => exact absurd rfl (hrestore bs)
  | rewind values =>
    refine .map (.step ?_) _
    cases values.min? with
    | none => exact hP.pure ()
    | some p => exact hP.schedule fun a => a.rewind p
  | close => exact absurd rfl hclose

end Performs

end Job

end Tidemark
