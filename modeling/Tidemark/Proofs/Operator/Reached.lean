import Tidemark.Proofs.Operator.Running

/-! The operators that runs reach, and what holds of all of them: agenda, entries and session lists
never diverge. A run may start over from images, as long as those were taken of operators that were
reached with the same policy and aggregate. -/

namespace Tidemark

namespace Call

variable {κ ν : Type} [Encoding κ]

/-- Not a new start, and keys can be read back. -/
def Plain : Call κ ν → Prop
  | .input i => i.Plain
  | .restore _ => False
  | _ => True

end Call

namespace Job

variable {κ ν α ω : Type} [Encoding κ] [Encoding α]

/-- The operators that runs of a job reach, in whichever orders the buffer is written to the store.
Images are byte strings of a length below `2 ^ 64`. -/
inductive Reached : Job κ ν α ω → Operator κ α ω → Prop
  | start (job : Job κ ν α ω) (collector : Collector (Emission κ ω))
    (drains : List (DrainOrder α)) : job.Reached (job.start collector .none drains)
  | call {job : Job κ ν α ω} {o : Operator κ α ω} (c : Call κ ν) (hc : c.Plain)
    (h : job.Reached o) : job.Reached ((job.call c).after o)
  | restore {job donor : Job κ ν α ω} {o d d' : Operator κ α ω} {bs : Bytes}
    (hpolicy : donor.policy = job.policy) (haggregate : donor.aggregate = job.aggregate)
    (hd : donor.Reached d) (hbs : d.snapshot = .ok bs d') (hlen : bs.length < 2 ^ 64)
    (h : job.Reached o) : job.Reached ((job.call (.restore bs)).after o)

variable {job : Job κ ν α ω} {o : Operator κ α ω}

theorem sound_start (job : Job κ ν α ω) (collector : Collector (Emission κ ω))
    (drains : List (DrainOrder α)) : (job.start collector .none drains).Sound job.policy.val where
  readable := ⟨rfl, fun id bs _ h => by simp [start] at h⟩
  cells := Cells.sound_empty _
  timely s := by
    show Agenda.initial.fireAt? s = (Cells.entryAt α ∅ s).map _
    simp [Agenda.initial, Agenda.empty, Agenda.fireAt?]

variable [LawfulEncoding α]

theorem safe_call (c : Call κ ν) (hc : c.Plain) (h : o.Safe job.policy.val) :
    ((job.call c).after o).Safe job.policy.val := by
  cases c with
  | input i =>
    cases i with
    | record now key t v =>
      rw [call, take, Command.after_map]
      exact job.safe_feed h now hc t v
    | advance p =>
      rw [call, take, Command.after_map]
      exact job.safe_advance h p
    | watermark w =>
      rw [call, take, Command.after_map]
      exact job.safe_watermark h w
  | tick t =>
    rw [call, Command.after_map]
    exact job.safe_tick h t
  | prepare =>
    rw [call, Command.after_map]
    exact Operator.safe_prepare h
  | snapshot =>
    rw [call, Command.after_map]
    exact Operator.safe_snapshot h
  | restore bs => exact absurd hc (by simp [Call.Plain])
  | rewind values =>
    rw [call, Command.after_map]
    exact Operator.safe_rewind h values
  | close =>
    rw [call, Command.after_map]
    exact Operator.safe_close o _

/-- Starting over from the image of a sound operator gives a sound one. -/
theorem safe_restore {p : Policy} {d d' : Operator κ α ω} {bs : Bytes} (hd : d.Safe p)
    (hbs : d.snapshot = .ok bs d') (hlen : bs.length < 2 ^ 64) (h : o.Safe p) :
    ((Operator.restore bs).after o).Safe p := by
  by_cases hrun : o.status = .running
  · have hdrun : d.status = .running := Operator.running_of_ok hbs
    obtain ⟨table, _, _, hsnap⟩ := Operator.exists_snapshot hdrun (hd hdrun).readable
    rw [hbs] at hsnap
    obtain ⟨rfl, _⟩ := EStateM.Result.ok.inj hsnap
    obtain ⟨table', agenda, hread, hcells, _, htimely, hrestore⟩ :=
      Operator.exists_restore hrun (h hrun).readable.faults (hd hdrun).cells rfl hlen
    unfold Command.after
    rw [hrestore]
    refine fun _ => ⟨hread, hcells ▸ (hd hdrun).cells, fun s => ?_⟩
    rw [htimely, Operator.entryAt, hcells]
  · unfold Operator.restore
    rw [Operator.after_whileRunning_of_ne _ hrun]
    exact h

/-- A reached operator is sound as long as it runs. -/
theorem Reached.safe (h : job.Reached o) : o.Safe job.policy.val := by
  induction h with
  | start job collector drains => exact fun _ => job.sound_start collector drains
  | call c hc _ ih => exact safe_call c hc ih
  | @restore job donor o d d' bs hpolicy _ _ hbs hlen _ ihd ih =>
    rw [Job.call, Command.after_map]
    rw [hpolicy] at ihd
    exact safe_restore ihd hbs hlen ih

end Job

namespace Operator

variable {κ α ω : Type} [Encoding κ] [Encoding α]

/-- How the table, the agenda and the session lists of an operator hang together. -/
structure Consistent (p : Policy) (o : Operator κ α ω) : Prop where
  /-- One timer waits for each live slot, until its entry fires, and no other timer does. -/
  timer : ∀ t : Timer, t ∈ o.agenda.queue ↔ (o.table.live? t.slot).map Entry.fireAt = some t.fireAt
  index : ∀ s, o.agenda.fireAt? s = (o.table.live? s).map Entry.fireAt
  /-- An entry fires when its window does. -/
  fireAt : ∀ s e, o.table.live? s = some e → e.fireAt = p.firesAt s.window
  /-- Where windows merge, the stored sessions of a key are its live windows, in strictly ascending
  order, and none touches another. -/
  sessions : p.merges → ∀ key, ∃ ws, o.table.store.cells.sessions key = .ok ws ∧
    ws.Pairwise (fun v w => compare v w = .lt) ∧ ws.Pairwise (fun v w => ¬ v.touches w) ∧
    ∀ w, w ∈ ws ↔ (o.table.live? ⟨key, w⟩).isSome
  /-- Where windows do not merge, no sessions are stored. -/
  plain : ¬ p.merges → ∀ id : CellId, id.state = sessionCell.state →
    o.table.store.cells[id]? = none
  /-- Nothing is stored but entries of live slots and lists of live sessions. -/
  stored : ∀ (id : CellId) (bs : Bytes), o.table.store.cells[id]? = some bs →
    (∃ s : Slot, id = s.cell ∧ (o.table.live? s).isSome) ∨
    ∃ (key : Bytes) (ws : List Window), id = sessionsAt key ∧ bs = encode ws ∧ ws ≠ []

theorem consistent_of_sound [LawfulEncoding α] {p : Policy} {o : Operator κ α ω} (h : o.Sound p) :
    o.Consistent p := by
  have hlive : ∀ s, o.table.live? s = o.entryAt s := fun s =>
    (Table.entryAt_contents o.table s).symm
  have hother : ∀ id : CellId, (∀ s : Slot, s.cell ≠ id) →
      o.table.contents[id]? = o.table.store.cells[id]? :=
    fun id => Table.getElem?_overlay_of_ne o.table.buffer o.table.store.cells
  refine ⟨fun t => ?_, fun s => ?_, fun s e he => ?_, fun hm key => ?_, fun hm id hid => ?_,
    fun id bs hbs => ?_⟩
  · rw [Agenda.mem_queue, h.timely, hlive]
  · rw [h.timely, hlive]
  · rw [hlive] at he
    exact h.cells.fireAt s e he
  · have hread : o.table.store.cells.sessions key = .ok (o.table.contents.live key) := by
      rw [← h.cells.sessions hm key, Cells.sessions, Cells.sessions,
        hother (sessionsAt key) fun s => s.cell_ne_sessionsAt key]
    refine ⟨_, hread, ?_, (h.cells.apart hm key).scattered, fun w => ?_⟩
    · exact h.cells.ascending_live hm key
    · rw [hlive]
      exact h.cells.mem_live hm key w
  · have hcell : ∀ s : Slot, s.cell ≠ id := by
      rintro s rfl
      simp [Slot.cell, sessionCell] at hid
    rw [← hother id hcell, Option.eq_none_iff_forall_ne_some]
    intro bs hbs
    rcases h.cells.tidy id bs hbs with ⟨s, _, he, _⟩ | ⟨hm', _⟩
    · exact hcell s he.symm
    · exact hm hm'
  · by_cases hcell : ∃ s : Slot, s.cell = id
    · obtain ⟨s, rfl⟩ := hcell
      obtain ⟨e, he⟩ := h.readable.entries s.cell bs rfl hbs
      refine .inl ⟨s, rfl, ?_⟩
      rw [Table.live?, Cells.entryAt_eq_some.2 ⟨bs, hbs, he⟩]
      cases o.table.buffer[s]? <;> rfl
    · rw [← hother id fun s he => hcell ⟨s, he⟩] at hbs
      rcases h.cells.tidy id bs hbs with ⟨s, _, he, _⟩ | ⟨_, key, ws, hid, hencode, hws, _⟩
      · exact absurd ⟨s, he.symm⟩ hcell
      · exact .inr ⟨key, ws, hid, hencode, hws⟩

end Operator

namespace Job

variable {κ ν α ω : Type} [Encoding κ] [Encoding α] [LawfulEncoding α] {job : Job κ ν α ω}
  {o : Operator κ α ω}

/-- Table, agenda and session lists of a running operator never diverge. -/
theorem Reached.consistent (h : job.Reached o) (hrun : o.status = .running) :
    o.Consistent job.policy.val :=
  Operator.consistent_of_sound (h.safe hrun)

/-- Sessions of a gap of ten: the second record merges into the session of the first. -/
theorem consistent_two_records :
    let job := wrappingSums ⟨{ shape := .session 10 }, by decide⟩
    let o := (job.take (.record 0 1 12 8)).after ((job.take (.record 0 1 5 7)).after (job.start {}))
    o.status = .running ∧ o.Consistent { shape := .session 10 } :=
  ⟨by decide +kernel,
    Reached.consistent
      (((Reached.start (wrappingSums ⟨{ shape := .session 10 }, by decide⟩) {} []).call
        (.input (.record 0 1 5 7)) (faithful 1)).call (.input (.record 0 1 12 8)) (faithful 1))
      (by decide +kernel)⟩

end Job

end Tidemark
