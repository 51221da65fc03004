import Tidemark.Proofs.Operator.Replay

/-! Starting over from bytes that are no image. Bytes that do not parse change nothing, and a state
that cannot be read stops the operator for good. An entry under a scope that is no window does
neither: by the time it is found, the store has been replaced and the timers are gone. -/

namespace Tidemark

namespace Cells

variable {α : Type} [Encoding α]

/-- A listing fails for good, or at an entry whose scope is no window. -/
theorem error_of_listing {cs : Cells} {e : Error} (h : cs.listing α = .error e)
    (he : ¬ e.isFatal) : ∃ (id : CellId) (bs : Bytes), cs[id]? = some bs ∧
      id.state = (entryCell α).state ∧ decodeAs "decode window" Window id.scope = .error e := by
  unfold listing at h
  cases hfound : (entryCell α).listing { cells := cs } with
  | error e' =>
    rw [hfound] at h
    obtain rfl := Except.error.inj h
    exact absurd rfl he
  | ok found =>
    rw [hfound] at h
    obtain ⟨r, hr, hslot⟩ := error_of_mapM h
    obtain ⟨found', hfound', hmem⟩ := exists_mapM (ok_of_mapM hfound)
    obtain rfl := Except.ok.inj (hfound.symm.trans hfound')
    obtain ⟨q, hq, hqr⟩ := (hmem r).1 hr
    obtain ⟨hbs, hstate⟩ := StateStore.mem_cellsOf.1 hq
    have hid : r.1 = q.1 := by
      cases hread : StateStore.read (Entry α) (entryCell α).state q.2 with
      | error e' =>
        simp only [hread] at hqr
        cases hqr
      | ok x =>
        simp only [hread] at hqr
        exact congrArg Prod.fst (Except.ok.inj hqr).symm
    refine ⟨q.1, q.2, hbs, hstate, ?_⟩
    rw [← hid]
    unfold Table.slotOf at hslot
    cases hwindow : decodeAs "decode window" Window r.1.scope with
    | error e' =>
      rw [hwindow] at hslot
      rw [Except.error.inj hslot]
    | ok w =>
      rw [hwindow] at hslot
      cases hslot

end Cells

namespace Operator

variable {κ α ω : Type} [Encoding α] {o o' : Operator κ α ω} {bs : Bytes} {e : Error}

/-- Starting over broke off at an entry under a scope that is no window: the operator runs on with
the cells of the image, without a timer, and with the marks that it had. -/
structure BrokeOff (bs : Bytes) (e : Error) (o o' : Operator κ α ω) : Prop where
  cells : ∃ (i : Image) (cells : Cells), Image.parse bs = .ok i ∧ decode Cells i.state = .ok cells ∧
    o'.table.Settled cells ∧ ∃ (id : CellId) (value : Bytes), cells[id]? = some value ∧
      id.state = (entryCell α).state ∧ decodeAs "decode window" Window id.scope = .error e
  running : o'.status = .running
  agenda : o'.agenda = .initial
  rest : o' = { o with table := o'.table, agenda := o'.agenda }

/-- Rebuilding the agenda fails when the cells cannot be listed, and keeps them. -/
theorem error_of_rebuild {i : Image} {cells : Cells} (h : rebuild i o = .error e o')
    (hset : o.table.Settled cells) : o'.table.Settled cells ∧
      o' = { o with table := o'.table } ∧ cells.listing α = .error e := by
  obtain ⟨t, ht, hentries⟩ := Table.exists_entries (t := o.table) hset.faults
  rw [hset.contents] at ht hentries
  unfold rebuild at h
  rw [Command.run_bind, run_onTable, hentries] at h
  cases hl : cells.listing α with
  | ok l =>
    rw [hl] at h
    cases h
  | error e' =>
    rw [hl] at h
    obtain ⟨rfl, rfl⟩ := EStateM.Result.error.inj h
    exact ⟨ht, rfl, rfl⟩

/-- When an operator cannot start over, it has failed, or it is as it was, or it broke off. -/
theorem restore_error (hfaults : o.table.store.faults = .none) (h : restore bs o = .error e o') :
    o'.status = .failed ∨ o' = o ∨ BrokeOff bs e o o' := by
  rcases cases_of_error h with hfailed | hsame | ⟨hrun, hmild, hstep⟩
  · exact .inl hfailed
  · exact .inr (.inl hsame)
  rw [Command.run_bind] at hstep
  cases hparse : Image.parse bs with
  | error e' =>
    rw [hparse] at hstep
    exact .inr (.inl (EStateM.Result.error.inj hstep).2.symm)
  | ok i =>
    rw [hparse] at hstep
    dsimp only [Command.ofExcept] at hstep
    rw [Command.run_bind, run_onTable, Table.restore_eq hfaults] at hstep
    cases hcells : decode Cells i.state with
    | error cause =>
      rw [hcells] at hstep
      obtain ⟨rfl, -⟩ := EStateM.Result.error.inj hstep
      exact absurd rfl hmild
    | ok cells =>
      rw [hcells] at hstep
      have hrebuild : rebuild i ({ o with
          table := { o.table with buffer := ∅ }.storing cells o.table.store.current
          agenda := .initial } : Operator κ α ω) = .error e o' := hstep
      obtain ⟨hset, hrest, hlist⟩ :=
        error_of_rebuild hrebuild ⟨hfaults, rfl, rfl⟩
      have hscope := Cells.error_of_listing hlist hmild
      refine .inr (.inr ⟨⟨i, cells, hparse, hcells, hset, hscope⟩, ?_, ?_, ?_⟩)
      · rw [hrest]
        exact hrun
      · rw [hrest]
      · rw [hrest]

end Operator

namespace Job

/-- An image whose only entry lies under the empty scope. -/
def scopelessImage : Bytes :=
  let cells : Cells := (∅ : Cells).insert ⟨(entryCell Int64).state, encode (1 : Int64), []⟩
    (encode (⟨5, 9⟩ : Entry Int64))
  encode (⟨3, .first, .first, encode cells⟩ : Image)

/-- An operator that holds a window is offered that image. It answers with a failure and runs on,
but the timer of its window is gone, and so is its progress. -/
theorem restore_keeps_running :
    let job := wrappingSums ⟨{ shape := .tumbling 10 }, by decide⟩
    let o := job.through (job.start {}) [.input (.record 0 1 1 7), .input (.advance 3)]
    let o' := (Operator.restore scopelessImage).after o
    let s : Slot := ⟨encode (1 : Int64), ⟨0, 10⟩⟩
    o.status = .running ∧ o.table.store.faults = .none ∧
      ((Operator.restore scopelessImage).answer o).toOption = none ∧ o'.status = .running ∧
      o.agenda.fireAt? s = some 9 ∧ o'.agenda.fireAt? s = none ∧
      o.progress = 3 ∧ o'.progress = .first := by
  decide +kernel

/-- The general statement about that operator and that image. -/
theorem restore_error_scopeless :
    let job := wrappingSums ⟨{ shape := .tumbling 10 }, by decide⟩
    let o := job.through (job.start {}) [.input (.record 0 1 1 7), .input (.advance 3)]
    ∃ e o', Operator.restore scopelessImage o = .error e o' ∧
      (o'.status = .failed ∨ o' = o ∨ Operator.BrokeOff scopelessImage e o o') := by
  intro job o
  have hfaults : o.table.store.faults = .none := by decide +kernel
  have hanswer : ((Operator.restore scopelessImage).answer o).toOption = none := by decide +kernel
  cases h : Operator.restore scopelessImage o with
  | ok x o' =>
    rw [Command.answer, h] at hanswer
    cases hanswer
  | error e o' => exact ⟨e, o', rfl, Operator.restore_error hfaults h⟩

end Job

end Tidemark
