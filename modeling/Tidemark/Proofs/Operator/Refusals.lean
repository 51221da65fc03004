import Tidemark.Proofs.Operator.Buffering
import Tidemark.Proofs.Operator.Lifecycle
import Tidemark.Proofs.Table.Refusals

/-! Refusals stop an operator. Under refusals of the store and of the collector, an operator goes
the way that it goes without them, up to the first call that is hit. That call fails, and it fails
for good: nothing is emitted from then on, and what was emitted is what comes first without
refusals. Of a quota, as many places are gone as items were emitted. -/

namespace Tidemark

open Command

/-! ### The collector -/

namespace Admission

/-- `b` is what is left of `a` after items that were all accepted. -/
inductive Grants (a : Admission) : Admission → Prop
  | start : Grants a a
  | item {left : Nat} (h : Grants a (.quota (left + 1))) : Grants a (.quota left)

/-- After items that it accepted, `a` refuses one, and with that error. -/
inductive Refuses (a : Admission) : Error → Prop
  | receiverGone (h : a.Grants .receiverGone) : Refuses a .receiverGone
  | quotaSpent (h : a.Grants (.quota 0)) : Refuses a .quotaSpent

end Admission

namespace Collector

variable {β : Type} {a : Admission}

/-- The same items, in a collector that accepts everything and in one that has accepted what it was
handed as `a` says. -/
structure Unhindered (a : Admission) (c₀ c : Collector β) : Prop where
  free : c₀.admission = .always
  granted : a.Grants c.admission
  items : c.items = c₀.items

/-- An item was refused, and those before it come first among the items without refusals. -/
def Stopped (a : Admission) (e : Error) (c₀ c : Collector β) : Prop :=
  a.Refuses e ∧ c.items <+: c₀.items

/-- What `c` would accept, had it been handed nothing yet. -/
def room (c : Collector β) : Admission :=
  match c.admission with
  | .quota left => .quota (left + c.items.length)
  | a => a

/-- An item uses up one place, and one that is refused none. -/
theorem retains_room (x : β) : Retains room (collect x) := by
  rintro ⟨admission, items⟩
  cases admission with
  | always => rfl
  | receiverGone => rfl
  | quota left =>
    cases left with
    | zero => rfl
    | succ left =>
      simp only [Command.after, collect, room, List.length_append, List.length_singleton,
        Nat.add_right_comm, Nat.add_assoc]

theorem admission_of_room {c : Collector β} {left : ℕ} (h : c.room = .quota left) :
    c.items.length ≤ left ∧ c.admission = .quota (left - c.items.length) := by
  obtain ⟨admission, items⟩ := c
  cases admission with
  | always => cases h
  | receiverGone => cases h
  | quota now =>
    cases h
    exact ⟨Nat.le_add_left _ _, by rw [Nat.add_sub_cancel]⟩

theorem prefix_collect (x : β) (c : Collector β) : c.items <+: ((collect x).after c).items := by
  obtain ⟨admission, items⟩ := c
  cases admission with
  | always => exact List.prefix_append items [x]
  | receiverGone => exact List.prefix_refl items
  | quota left =>
    cases left with
    | zero => exact List.prefix_refl items
    | succ left => exact List.prefix_append items [x]

theorem tracks_collect (x : β) : Tracks (Unhindered a) (Stopped a) (collect x) := by
  refine ⟨fun e c₀ c h => ⟨h.1, h.2.trans (prefix_collect x c₀)⟩, ?_⟩
  rintro ⟨admission₀, items₀⟩ ⟨admission, items⟩ h
  obtain rfl : admission₀ = .always := h.free
  obtain rfl : items = items₀ := h.items
  have hgranted := h.granted
  cases admission with
  | always => exact .ok () ⟨rfl, hgranted, rfl⟩
  | receiverGone => exact .stopped _ _ ⟨.receiverGone hgranted, List.prefix_append items [x]⟩
  | quota left =>
    cases left with
    | zero => exact .stopped _ _ ⟨.quotaSpent hgranted, List.prefix_append items [x]⟩
    | succ left => exact .ok () ⟨rfl, .item hgranted, rfl⟩

end Collector

/-! ### Steps -/

/-- The plan of the store, or the collector, refused something. -/
inductive Refusal (p : FaultPlan) (a : Admission) : Error → Prop
  | store (c : StoreCall) (h : p.Refuses c) : Refusal p a (.store (Error.refused c).message)
  | collector (cause : Error) (h : a.Refuses cause) : Refusal p a (.collector cause.message)

theorem Refusal.isFatal {p : FaultPlan} {a : Admission} {e : Error} (h : Refusal p a e) :
    e.isFatal := by
  cases h with
  | store c h => rfl
  | collector cause h => rfl

namespace Operator

variable {κ α ω β γ : Type} {p : FaultPlan} {a : Admission}

/-- The same operators, the first of which meets no refusals, while the second has met none yet. -/
structure Unhindered (p : FaultPlan) (a : Admission) (o₀ o : Operator κ α ω) : Prop where
  table : o₀.table.Unhindered p o.table
  collector : o₀.collector.Unhindered a o.collector
  agenda : o.agenda = o₀.agenda
  lastTick : o.lastTick = o₀.lastTick
  forwarded : o.forwarded = o₀.forwarded
  status : o.status = o₀.status

/-- A step met a refusal, and what was emitted by then comes first among what is emitted without
refusals. -/
def Stopped (p : FaultPlan) (a : Admission) (e : Error) (o₀ o : Operator κ α ω) : Prop :=
  Refusal p a e ∧ o.collector.items <+: o₀.collector.items

/-- Until it meets a refusal, `c` does what it does without. -/
abbrev Tracked (p : FaultPlan) (a : Admission) (c : Command (Operator κ α ω) β) : Prop :=
  Tracks (Unhindered p a) (Stopped p a) c

theorem Unhindered.sameClocks {o₀ o : Operator κ α ω} (h : Unhindered p a o₀ o) : SameClocks o₀ o :=
  ⟨h.agenda.symm, h.lastTick.symm, h.forwarded.symm⟩

theorem Unhindered.contents [Encoding α] {o₀ o : Operator κ α ω} (h : Unhindered p a o₀ o) :
    o.table.contents = o₀.table.contents := by
  rw [Table.contents, Table.contents, h.table.store.cells, h.table.buffer]

theorem tracked_onTable {c : Command (Table α) β} (hc : Table.Tracked p c) :
    Tracked p a (onTable c : Command (Operator κ α ω) β) := by
  have hid : c = c.mapError id := by
    funext t
    unfold mapError
    cases c t <;> rfl
  unfold onTable
  rw [hid]
  refine hc.focus (fun _ _ _ h => h) (fun _ _ h => h.table) ?_ ?_
  · exact fun o₀ o t₀ t h ht => { h with table := ht }
  · rintro e o₀ o t₀ t h ⟨call, hcall, rfl⟩
    have hitems : o.collector.items <+: o₀.collector.items :=
      h.collector.items ▸ List.prefix_refl o.collector.items
    exact ⟨.store call hcall, hitems⟩

theorem tracked_emit (e : Emission κ ω) :
    Tracked p a (emit e : Command (Operator κ α ω) Unit) := by
  refine (Collector.tracks_collect e).focus ?_ (fun _ _ h => h.collector) ?_ ?_
  · exact fun _ o₀ o h => ⟨h.1, h.2.trans (Collector.prefix_collect e o₀.collector)⟩
  · exact fun o₀ o c₀ c h hc => { h with collector := hc }
  · exact fun e o₀ o c₀ c h hc => ⟨.collector e hc.1, hc.2⟩

/-- A change of the agenda and of the marks. -/
theorem tracked_modify (f : Agenda → Agenda) (tick forward : Timestamp → Timestamp)
    (mark : DropMeter → DropMeter) : Tracked p a (modify fun o => { o with
      agenda := f o.agenda, lastTick := tick o.lastTick, forwarded := forward o.forwarded,
      drops := mark o.drops } : Command (Operator κ α ω) Unit) :=
  tracks_modify (fun _ _ _ h => h) fun _ _ h => { h with
    agenda := congrArg f h.agenda
    lastTick := congrArg tick h.lastTick
    forwarded := congrArg forward h.forwarded }

/-- A call met a refusal, and the operator has failed. -/
def Halted (p : FaultPlan) (a : Admission) (e : Error) (o₀ o : Operator κ α ω) : Prop :=
  Stopped p a e o₀ o ∧ o.status = .failed

theorem steady_whileRunning {c : Command (Operator κ α ω) β} (hc : Steady (Stopped p a) c) :
    Steady (Halted p a) (whileRunning c) := by
  rintro e o₀ o ⟨h, hfailed⟩
  refine ⟨⟨h.1, ?_⟩, hfailed⟩
  by_cases hrun : o₀.status = .running
  · rw [collector_after_whileRunning c hrun]
    exact (hc e o₀ o h).2
  · rw [after_whileRunning_of_ne c hrun]
    exact h.2

/-- A running operator goes the way of its steps, when a step is stopped by fatal errors only and
the status of the operator that goes on does not matter to a stop. -/
theorem tracks_whileRunning {same : Operator κ α ω → Operator κ α ω → Prop}
    {stop stop' : Error → Operator κ α ω → Operator κ α ω → Prop}
    {c : Command (Operator κ α ω) β} (hc : Tracks same stop c)
    (hsteady : Steady stop' (whileRunning c))
    (hstatus : ∀ o₀ o, same o₀ o → o.status = o₀.status)
    (hfailed : ∀ o₀ o, same o₀ o →
      same { o₀ with status := .failed } { o with status := .failed })
    (hstop : ∀ e o₀ o, stop e o₀ o →
      e.isFatal ∧ ∀ status, stop' e { o₀ with status } { o with status := .failed }) :
    Tracks same stop' (whileRunning c) := by
  refine ⟨hsteady, fun o₀ o h => ?_⟩
  by_cases hrun : o₀.status = .running
  · rw [whileRunning_eq c hrun, whileRunning_eq c ((hstatus o₀ o h).trans hrun)]
    have hstep := hc.beside o₀ o h
    generalize c o₀ = r₀ at hstep
    generalize c o = r at hstep
    cases hstep with
    | ok x h' => exact .ok x h'
    | error e h' =>
      refine .error e ?_
      split
      · exact hfailed _ _ h'
      · exact h'
    | stopped _ e h' =>
      obtain ⟨hfatal, hstopped⟩ := hstop e _ _ h'
      dsimp only
      rw [if_pos hfatal]
      refine .stopped _ e ?_
      cases r₀ with
      | ok x o₁ => exact hstopped o₁.status
      | error e₁ o₁ =>
        dsimp only [final] at hstopped ⊢
        split
        · exact hstopped .failed
        · exact hstopped o₁.status
  · have hidle : o.status ≠ .running := hstatus o₀ o h ▸ hrun
    rw [whileRunning_of_ne c hrun, whileRunning_of_ne c hidle, hstatus o₀ o h]
    exact .error _ h

/-- A refusal is fatal. -/
theorem Tracked.whileRunning {c : Command (Operator κ α ω) β} (hc : Tracked p a c) :
    Tracks (Unhindered p a) (Halted p a) (Operator.whileRunning c) :=
  tracks_whileRunning hc (steady_whileRunning hc.steady) (fun _ _ h => h.status)
    (fun _ _ h => { h with status := rfl }) fun _ _ _ h => ⟨h.1.isFatal, fun _ => ⟨h, rfl⟩⟩

theorem Runs.tracks {c : Command (Operator κ α ω) β} (hc : Runs (Tracked p a) c) :
    Tracks (Unhindered p a) (Halted p a) c := by
  induction hc with
  | step hc => exact Tracked.whileRunning hc
  | map _ f ih => exact composes_tracks.map ih f

theorem tracks_close : Tracks (Unhindered p a) (Halted p a)
    (close : Command (Operator κ α ω) Unit) := by
  refine ⟨fun e o₀ o h => ?_, fun o₀ o h => ?_⟩
  · rw [Command.after]
    by_cases hclosed : o₀.status = .closed
    · rw [close_of_closed hclosed]
      exact h
    · rw [close_of_ne hclosed]
      exact h
  · by_cases hclosed : o₀.status = .closed
    · rw [close_of_closed hclosed, close_of_closed (h.status.trans hclosed)]
      exact .ok () h
    · rw [close_of_ne hclosed, close_of_ne (o := o) (h.status ▸ hclosed)]
      have hstore := h.table.store
      exact .ok () ⟨⟨⟨hstore.free, hstore.granted, rfl, rfl⟩, rfl, h.table.capacity, h.table.drains⟩,
        h.collector, congrArg Agenda.clear h.agenda, h.lastTick, h.forwarded, rfl⟩

end Operator

/-! ### Calls -/

namespace Job

open Operator

variable {κ ν α ω : Type} [Encoding κ] [Encoding α] (job : Job κ ν α ω) {p : FaultPlan}
  {a : Admission}

omit [Encoding κ] in
theorem performs_tracked : job.Performs SameClocks (Tracked p a) where
  agenda h := h.agenda
  toComposes := composes_tracks
  ofExcept := tracks_ofExcept
  emit := tracked_emit
  read hk := by
    refine ⟨fun e o₀ o h => ?_, fun o₀ o h => ?_⟩
    · obtain ⟨c, hc, hnext⟩ := hk o₀
      have hstep := hc.steady e o₀ o h
      rw [after_eq] at hstep ⊢
      rwa [run_get_bind, hnext o₀ ⟨rfl, rfl, rfl⟩]
    · obtain ⟨c, hc, hnext⟩ := hk o₀
      rw [run_get_bind, run_get_bind, hnext o₀ ⟨rfl, rfl, rfl⟩, hnext o h.sameClocks]
      exact hc.beside o₀ o h
  change := tracked_modify
  mergeSession key candidate := tracked_onTable (Table.tracked_mergeSession _ _ key candidate)
  add s fireAt v := tracked_onTable (Table.tracked_add _ s fireAt v)
  finish s := tracked_onTable (Table.tracked_finish _ s)
  discard s := tracked_onTable (Table.tracked_discard s)
  discardSession s := tracked_onTable (Table.tracked_discardSession s)
  flush := tracked_onTable Table.tracked_flush
  snapshot := tracked_onTable Table.tracked_snapshot

theorem tracks_call (c : Call κ ν) :
    Tracks (Unhindered p a) (Halted p a) (job.call c : Command (Operator κ α ω) Answer) := by
  cases c with
  | restore bs =>
    refine composes_tracks.map (Tracked.whileRunning ?_) _
    refine (tracks_ofExcept _).bind fun i => ?_
    refine (tracked_onTable (Table.tracked_restore i.state)).bind fun _ => ?_
    refine (tracked_modify (fun _ => .initial) id id id).bind fun _ => ?_
    refine (tracked_onTable Table.tracked_entries).bind fun entries => ?_
    exact tracked_modify (fun _ => (Agenda.ofEntries entries).rewind i.progress)
      (fun _ => i.lastTick) (fun _ => i.forwarded) id
  | close => exact composes_tracks.map tracks_close _
  | _ => exact (job.performs_tracked.runs_call (by nofun) (by nofun)).tracks

/-! ### Runs -/

omit [Encoding κ] [Encoding α] in
theorem unmoved_room : Unmoved fun o : Operator κ α ω => o.collector.room where
  table _ _ := rfl
  emit e o := by
    rw [emit, after_focus, after_mapError]
    exact Collector.retains_room e o.collector
  change _ _ _ _ _ := rfl

/-- Of the quota, a call uses up one place for each item that it emits. -/
theorem room_call (c : Call κ ν) (o : Operator κ α ω) :
    ((job.call c).after o).collector.room = o.collector.room := by
  by_cases hclose : c = .close
  · subst hclose
    rw [call, after_map, Command.after]
    by_cases hclosed : o.status = .closed
    · rw [close_of_closed hclosed]
    · rw [close_of_ne hclosed]
  · exact (job.runs_retains unmoved_room hclose).retains (fun _ => rfl) o

theorem room_through (calls : List (Call κ ν)) (o : Operator κ α ω) :
    (job.through o calls).collector.room = o.collector.room := by
  induction calls generalizing o with
  | nil => rfl
  | cons c calls ih => exact (ih _).trans (job.room_call c o)

/-- Whatever is called, and whatever the store refuses, as many items are emitted as places of the
quota are gone. -/
theorem quota_through (left : ℕ) (faults : FaultPlan) (drains : List (DrainOrder α))
    (calls : List (Call κ ν)) :
    let o := job.through (job.start ⟨.quota left, []⟩ faults drains) calls
    o.collector.items.length ≤ left ∧
      o.collector.admission = .quota (left - o.collector.items.length) := by
  exact Collector.admission_of_room
    (job.room_through calls (job.start ⟨.quota left, []⟩ faults drains))

omit [Encoding κ] [Encoding α] in
theorem unhindered_start (collector : Collector (Emission κ ω)) (faults : FaultPlan)
    (drains : List (DrainOrder α)) :
    Unhindered faults collector.admission
      (job.start { collector with admission := .always } .none drains)
      (job.start collector faults drains) :=
  ⟨⟨⟨rfl, .start, rfl, rfl⟩, rfl, rfl, rfl⟩, ⟨rfl, .start, rfl⟩, rfl, rfl, rfl, rfl⟩

/-- A call after which the operator runs has met no refusal. -/
theorem unhindered_of_running {c : Call κ ν} {o₀ o : Operator κ α ω} (h : Unhindered p a o₀ o)
    (hrun : ((job.call c).after o).status = .running) :
    Unhindered p a ((job.call c).after o₀) ((job.call c).after o) := by
  rcases (job.tracks_call c).same_or_stopped h with ⟨_, hafter⟩ | ⟨e, _, _, hfailed⟩
  · exact hafter
  · rw [hfailed] at hrun
    cases hrun

/-- What was emitted before comes first among what is emitted without refusals. -/
theorem steady_through (calls : List (Call κ ν)) {e : Error} {o₀ o : Operator κ α ω}
    (h : Halted p a e o₀ o) : Halted p a e (job.through o₀ calls) o := by
  induction calls generalizing o₀ with
  | nil => exact h
  | cons c calls ih => exact ih ((job.tracks_call c).steady e o₀ o h)

theorem items_through_of_ne (calls : List (Call κ ν)) {o : Operator κ α ω}
    (h : o.status ≠ .running) : (job.through o calls).collector.items = o.collector.items := by
  induction calls generalizing o with
  | nil => rfl
  | cons c calls ih =>
    obtain ⟨hcollector, hstatus⟩ := job.idle_call c h
    exact (ih hstatus).trans (congrArg Collector.items hcollector)

theorem unhindered_or_halted (calls : List (Call κ ν)) {o₀ o : Operator κ α ω}
    (h : Unhindered p a o₀ o) :
    job.observations o calls = job.observations o₀ calls ∧
        Unhindered p a (job.through o₀ calls) (job.through o calls) ∨
      ∃ fore c later e, calls = fore ++ c :: later ∧
        job.observations o fore = job.observations o₀ fore ∧
        Unhindered p a (job.through o₀ fore) (job.through o fore) ∧
        (job.call c).answer (job.through o fore) = .error e ∧
        Halted p a e (job.through o₀ calls) ((job.call c).after (job.through o fore)) := by
  induction calls generalizing o₀ o with
  | nil => exact .inl ⟨rfl, h⟩
  | cons c calls ih =>
    rcases (job.tracks_call c).same_or_stopped h with ⟨hanswer, hafter⟩ | ⟨e, hanswer, hhalted⟩
    · have hobserve : o.observe ((job.call c).after o) ((job.call c).answer o) =
          o₀.observe ((job.call c).after o₀) ((job.call c).answer o₀) := by
        rw [observe, observe, hanswer, emittedSince, emittedSince, ← hafter.sameClocks.progress,
          hafter.agenda, hafter.collector.items, h.collector.items]
      rcases ih hafter with ⟨hsame, hend⟩ | ⟨fore, c', later, e, rfl, hsame, hfore, hanswer', hend⟩
      · refine .inl ⟨?_, hend⟩
        rw [observations, observations, hobserve, hsame]
      · refine .inr ⟨c :: fore, c', later, e, rfl, ?_, hfore, hanswer', hend⟩
        rw [observations, observations, hobserve, hsame]
    · exact .inr ⟨[], c, calls, e, rfl, rfl, h, hanswer, job.steady_through calls hhalted⟩

/-- What is emitted under refusals comes first among what is emitted without them. -/
theorem prefix_through (calls : List (Call κ ν)) {o₀ o : Operator κ α ω}
    (h : Unhindered p a o₀ o) :
    (job.through o calls).collector.items <+: (job.through o₀ calls).collector.items := by
  rcases job.unhindered_or_halted calls h with
    ⟨_, hend⟩ | ⟨fore, c, later, e, rfl, _, _, _, ⟨_, hprefix⟩, hfailed⟩
  · exact hend.collector.items ▸ List.prefix_refl _
  · have hidle : ((job.call c).after (job.through o fore)).status ≠ .running := by simp [hfailed]
    have hitems := job.items_through_of_ne later hidle
    rw [through_append job o fore (c :: later)]
    exact hitems.symm ▸ hprefix

end Job

namespace Operator

/-- On the way to `o`, every call of the store and every item for the collector was granted. -/
structure Spared {κ α ω : Type} (p : FaultPlan) (a : Admission) (o : Operator κ α ω) : Prop where
  store : p.Grants o.table.store.faults
  collector : a.Grants o.collector.admission

end Operator

namespace Job

open Operator

variable {κ ν α ω : Type} [Encoding κ] [Encoding α] [LawfulEncoding α] (job : Job κ ν α ω)

/-- Refusals stop an operator, and nothing else comes of them. A run under refusals shows what the
run without shows, and emits the same. Or it does so up to a call that meets a refusal: that call
fails with it, the operator has failed, and whatever is called from then on, what was emitted is
what the run without refusals emits first. -/
theorem stops_at_refusal (collector : Collector (Emission κ ω)) (faults : FaultPlan)
    (drains drains' : List (DrainOrder α)) (calls : List (Call κ ν)) :
    let o := job.start collector faults drains
    let o₀ := job.start { collector with admission := .always } .none drains'
    job.observations o calls = job.observations o₀ calls ∧
        (job.through o calls).Spared faults collector.admission ∧
        (job.through o calls).collector.items = (job.through o₀ calls).collector.items ∨
      ∃ fore c later e, calls = fore ++ c :: later ∧
        job.observations o fore = job.observations o₀ fore ∧
        (job.through o fore).Spared faults collector.admission ∧
        (job.call c).answer (job.through o fore) = .error e ∧
        Refusal faults collector.admission e ∧
        ((job.call c).after (job.through o fore)).status = .failed ∧
        ∀ rest, (job.through o (fore ++ c :: rest)).collector.items <+:
          (job.through o₀ calls).collector.items := by
  intro o o₀
  -- without refusals, in the order of the run with them
  let o₁ := job.start { collector with admission := .always } .none drains
  have hstarts := (job.sameContents_start job { collector with admission := .always } drains
    drains').sameWhileRunning
  have hstart : Unhindered faults collector.admission o₁ o :=
    job.unhindered_start collector faults drains
  have hitems : (job.through o₁ calls).collector.items = (job.through o₀ calls).collector.items := by
    obtain ⟨out, h₁, h₀⟩ := (job.sameWhileRunning_through calls hstarts).items
    exact h₁.trans h₀.symm
  rcases job.unhindered_or_halted calls hstart with
    ⟨hsame, hend⟩ | ⟨fore, c, later, e, hcalls, hsame, hfore, hanswer, ⟨hrefusal, hprefix⟩, hfailed⟩
  · refine .inl ⟨hsame.trans (job.observations_eq calls hstarts), ?_, ?_⟩
    · exact ⟨hend.table.store.granted, hend.collector.granted⟩
    · exact hend.collector.items.trans hitems
  · refine .inr ⟨fore, c, later, e, hcalls, hsame.trans (job.observations_eq fore hstarts), ?_,
      hanswer, hrefusal, hfailed, fun rest => ?_⟩
    · exact ⟨hfore.table.store.granted, hfore.collector.granted⟩
    · have hidle : ((job.call c).after (job.through o fore)).status ≠ .running := by simp [hfailed]
      rw [through_append, ← hitems]
      exact (job.items_through_of_ne rest hidle).symm ▸ hprefix

/-- A buffer for one entry spills at the second key, and the second of its writes is refused. The
sums that are emitted otherwise never leave. -/
theorem stops_at_second_write :
    let job : Job Int64 Int64 Int64 Int64 :=
      ⟨⟨{ shape := .tumbling 10 }, by decide⟩, .wrappingSum, ⟨{ capacity := 1 }, by decide⟩⟩
    let calls : List (Call Int64 Int64) :=
      [.input (.record 0 1 1 7), .input (.record 0 2 1 8), .input (.advance 9)]
    let collector : Collector (Emission Int64 Int64) := {}
    let o := job.start collector { script := [false, false, false, true] }
    let o₀ := job.start { collector with admission := .always }
    ∃ fore c later e, calls = fore ++ c :: later ∧
      job.observations o fore = job.observations o₀ fore ∧
      (job.call c).answer (job.through o fore) = .error e ∧
      ((job.call c).after (job.through o fore)).status = .failed ∧
      (job.through o calls).collector.items <+: [⟨1, ⟨0, 10⟩, 7⟩, ⟨2, ⟨0, 10⟩, 8⟩] := by
  intro job calls collector
  dsimp only
  have hfree : (job.through (job.start { collector with admission := .always }) calls).collector.items
      = [⟨1, ⟨0, 10⟩, 7⟩, ⟨2, ⟨0, 10⟩, 8⟩] := by decide +kernel
  rcases stops_at_refusal job collector { script := [false, false, false, true] } [] [] calls with
    ⟨_, _, hitems⟩ | ⟨fore, c, later, e, hcalls, hsame, _, hanswer, _, hfailed, hprefix⟩
  · exact absurd hitems (by decide +kernel)
  · have hrun := hprefix later
    rw [← hcalls, hfree] at hrun
    exact ⟨fore, c, later, e, hcalls, hsame, hanswer, hfailed, hrun⟩

end Job

end Tidemark
