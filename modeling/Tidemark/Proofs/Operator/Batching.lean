import Tidemark.Proofs.Operator.Onward
import Tidemark.Proofs.Table.Confluence

/-! Announcing progress in steps. What comes due in the first step comes before what comes due in
the second, and neither step touches what the other retires. So nothing can be told from the steps
in which progress is announced: the last of them alone emits the same, in the same order, and leaves
the same. -/

namespace Tidemark

namespace Operator

variable {κ ν α ω : Type} [Encoding κ] [Encoding α] {p : Policy} {g : Aggregate ν α ω}
  {a b q : Timestamp} {o o₁ o₂ : Operator κ α ω}

/-- Progress that is reached in two steps is reached. -/
theorem Reaches.trans (h : o.Sound p) (ha : o.progress < a) (hab : a < b) (h₁ : o₁.Sound p)
    (hr : o.Reaches g a o₁) (hr' : o₁.Reaches g b o₂) : o.Reaches g b o₂ := by
  have hleft : ∀ s x, o₁.entryAt s = some x → o.entryAt s = some x := by
    intro s x hx
    rw [hr.entry, Option.filter_eq_some_iff] at hx
    exact hx.1
  have hagenda : o₁.agenda = (o.agenda.advance a).2 := by
    refine Agenda.eq_of_fireAt? ?_ fun s => ?_
    · exact hr.progress.trans (Agenda.progress_advance ha).symm
    · rw [h₁.timely, hr.entry, Agenda.fireAt?_advance ha, h.timely, Option.filter_map]
      rfl
  obtain ⟨out, hitems, hout⟩ := hr.emitted
  obtain ⟨out', hitems', hout'⟩ := hr'.emitted
  refine ⟨hr'.progress, fun s => ?_, ⟨out ++ out', ?_, ?_⟩, hr'.admission ∘ hr.admission,
    hr'.drops.trans hr.drops, hr'.lastTick.trans hr.lastTick, hr'.forwarded.trans hr.forwarded,
    hr'.status.trans hr.status⟩
  · rw [hr'.entry, hr.entry]
    ext x
    simp only [Option.filter_eq_some_iff, decide_eq_true_eq, and_assoc]
    exact and_congr_right fun _ => ⟨And.right, fun hx => ⟨Int64.lt_trans hab hx, hx⟩⟩
  · rw [hitems', hitems, List.append_assoc]
  · rw [← (Agenda.advance_advance (Int64.le_of_lt hab) o.agenda).1, ← hagenda]
    refine List.rel_append hout (hout'.imp ?_)
    rintro t e ⟨x, hx, hrel⟩
    exact ⟨x, hleft _ x hx, hrel⟩

/-- There is one way to reach progress. -/
theorem Reaches.sameContents [LawfulEncoding α] (hr : o.Reaches g q o₁) (hr' : o.Reaches g q o₂)
    (h₁ : o₁.Sound p) (h₂ : o₂.Sound p) (hopen : o.collector.admission = .always) :
    SameContents o.collector.items o.collector.items o₁ o₂ := by
  have hentry : ∀ s, o₁.entryAt s = o₂.entryAt s := fun s => by rw [hr.entry, hr'.entry]
  have hagenda : o₁.agenda = o₂.agenda :=
    Agenda.eq_of_fireAt? (hr.progress.trans hr'.progress.symm) fun s => by
      rw [h₁.timely, h₂.timely, hentry]
  have hunique : Relator.RightUnique fun (t : Timer) (e : Emission κ ω) =>
      ∃ x, o.entryAt t.slot = some x ∧ g.Releases t.slot x e := by
    rintro t e e' ⟨x, hx, hrel⟩ ⟨x', hx', hrel'⟩
    obtain rfl := Option.some.inj (hx.symm.trans hx')
    exact hrel.unique hrel'
  obtain ⟨out, hitems, hout⟩ := hr.emitted
  obtain ⟨out', hitems', hout'⟩ := hr'.emitted
  obtain rfl := hunique.forall₂ hout hout'
  exact ⟨⟨hagenda, hr.lastTick.trans hr'.lastTick.symm, hr.forwarded.trans hr'.forwarded.symm,
    hr.status.trans hr'.status.symm, (hr.admission hopen).trans (hr'.admission hopen).symm, out,
    hitems, hitems'⟩, h₁.readable, h₂.readable, h₁.cells.eq_of_entryAt h₂.cells hentry⟩

/-- Where `o` gets when progress `q` is announced: old progress is no news. -/
def Moves (p : Policy) (g : Aggregate ν α ω) (q : Timestamp) (o o' : Operator κ α ω) : Prop :=
  if o.progress < q then o'.Sound p ∧ o.Reaches g q o' else o' = o

theorem Moves.cases (h : o.Moves p g q o₁) :
    o.progress < q ∧ o₁.Sound p ∧ o.Reaches g q o₁ ∨ q ≤ o.progress ∧ o₁ = o := by
  unfold Moves at h
  split at h
  · next hq => exact .inl ⟨hq, h⟩
  · next hq => exact .inr ⟨Int64.not_lt.1 hq, h⟩

/-- An announcement of more makes up for one before it. -/
theorem Moves.trans (h : o.Sound p) (hab : a ≤ b) (h₁ : o.Moves p g a o₁)
    (h₂ : o₁.Moves p g b o₂) : o.Moves p g b o₂ := by
  rcases h₁.cases with ⟨ha, hsound₁, hr₁⟩ | ⟨-, rfl⟩
  · have hb : o.progress < b := Int64.lt_of_lt_of_le ha hab
    unfold Moves
    rw [if_pos hb]
    rcases h₂.cases with ⟨hlt, hsound₂, hr₂⟩ | ⟨hle, rfl⟩
    · rw [hr₁.progress] at hlt
      exact ⟨hsound₂, hr₁.trans h ha hlt hsound₁ hr₂⟩
    · rw [hr₁.progress] at hle
      exact ⟨hsound₁, Int64.le_antisymm hab hle ▸ hr₁⟩
  · exact h₂

theorem Moves.ready (h : o.Sound p) (hm : o.Moves p g q o₁) : o₁.Sound p ∧
    o₁.status = o.status ∧ (o.collector.admission = .always → o₁.collector.admission = .always) := by
  rcases hm.cases with ⟨-, hsound, hr⟩ | ⟨-, rfl⟩
  · exact ⟨hsound, hr.status, hr.admission⟩
  · exact ⟨h, rfl, id⟩

theorem Moves.sameContents [LawfulEncoding α] (h : o.Sound p) (h₁ : o.Moves p g q o₁)
    (h₂ : o.Moves p g q o₂) (hopen : o.collector.admission = .always) :
    SameContents o.collector.items o.collector.items o₁ o₂ := by
  rcases h₁.cases with ⟨hlt, hsound₁, hr₁⟩ | ⟨hle, rfl⟩
  · rcases h₂.cases with ⟨-, hsound₂, hr₂⟩ | ⟨hle, -⟩
    · exact hr₁.sameContents hr₂ hsound₁ hsound₂ hopen
    · exact absurd hlt (Int64.not_lt.2 hle)
  · rcases h₂.cases with ⟨hlt, -⟩ | ⟨-, rfl⟩
    · exact absurd hlt (Int64.not_lt.2 hle)
    · exact ⟨⟨rfl, rfl, rfl, rfl, rfl, [], by simp, by simp⟩, h.readable, h.readable, rfl⟩

end Operator

namespace Job

open Operator

variable {κ ν α ω : Type} [Encoding κ] [Encoding α] [LawfulEncoding α] {job : Job κ ν α ω}
  {allowed : Operator κ α ω → Timestamp → Prop} {a b q : Timestamp} {o : Operator κ α ω}

/-- However many announcements come before one of no less, it alone leads to the same. -/
theorem exists_advances (ht : job.aggregate.Total) (h : o.Sound job.policy.val)
    (hrun : o.status = .running) (hopen : o.collector.admission = .always)
    {qs : List Timestamp} (hqs : ∀ a ∈ qs, a ≤ q) :
    ∃ o₁ o', (forM qs job.advance >>= fun _ => job.advance q) o = .ok () o₁ ∧
      job.advance q o = .ok () o' ∧ o₁.status = .running ∧
      SameContents o.collector.items o.collector.items o₁ o' := by
  have hsteps : ∃ o₁, (forM qs job.advance >>= fun _ => job.advance q) o = .ok () o₁ ∧
      o.Moves job.policy.val job.aggregate q o₁ := by
    induction qs generalizing o with
    | nil => exact job.exists_advance ht hrun h hopen q
    | cons a qs ih =>
      obtain ⟨o₁, hadvance, hmoves : o.Moves _ _ a o₁⟩ := job.exists_advance ht hrun h hopen a
      obtain ⟨hsound, hstatus, hadmission⟩ := hmoves.ready h
      obtain ⟨o₂, hlater, hmoves'⟩ := ih hsound (hstatus.trans hrun) (hadmission hopen)
        fun a' ha' => hqs a' (by simp [ha'])
      refine ⟨o₂, ?_, hmoves.trans h (hqs a (by simp)) hmoves'⟩
      rw [List.forM_cons, bind_assoc, Command.run_bind, hadvance]
      exact hlater
  obtain ⟨o₁, hrunSteps, hmoves⟩ := hsteps
  obtain ⟨o', honce, hmoves'⟩ := job.exists_advance ht hrun h hopen q
  exact ⟨o₁, o', hrunSteps, honce, (hmoves.ready h).2.1.trans hrun,
    hmoves.sameContents h hmoves' hopen⟩

/-- With an aggregate, a store and a collector that refuse nothing, progress that is announced in
two steps emits what it emits in one, in the same order, and leaves the same progress and timers,
the same entries and session lists, the same image, and the same to show in every run from then
on. -/
theorem advance_in_steps (ht : job.aggregate.Total) (h : job.ReachedWithin allowed o)
    (hrun : o.status = .running) (hfaults : o.table.store.faults = .none)
    (hopen : o.collector.admission = .always) (hab : a ≤ b) :
    ∃ o₁ o₂ o', job.advance a o = .ok () o₁ ∧ job.advance b o₁ = .ok () o₂ ∧
      job.advance b o = .ok () o' ∧
      o₂.collector.items = o'.collector.items ∧ o₂.agenda = o'.agenda ∧
      (∀ s, o₂.table.live? s = o'.table.live? s) ∧
      (∀ key, o₂.table.store.cells.sessions key = o'.table.store.cells.sessions key) ∧
      (∃ bs, snapshot.answer o₂ = .ok bs ∧ snapshot.answer o' = .ok bs) ∧
      ∀ calls : List (Call κ ν), job.observations o₂ calls = job.observations o' calls := by
  have hsound := (h.intact hrun).sound hfaults
  have hone : ∀ c ∈ [a], c ≤ b := by simpa using hab
  obtain ⟨o₂, o', hsteps, honce, hrun₂, hsame⟩ := exists_advances ht hsound hrun hopen hone
  rw [List.forM_cons, bind_assoc] at hsteps
  obtain ⟨_, o₁, hfirst, hsecond⟩ := Command.ok_of_bind hsteps
  obtain ⟨out, hitems, hitems'⟩ := hsame.items
  exact ⟨o₁, o₂, o', hfirst, hsecond, honce, hitems.trans hitems'.symm, hsame.agenda,
    hsame.live?_eq, hsame.sessions_eq, hsame.exists_snapshot hrun₂,
    fun calls => job.observations_eq calls hsame.sameWhileRunning⟩

/-- Progress was set by hand past the session of one key and back, and neither session has fired:
the first step emits the overdue one, the second the other. -/
theorem advance_in_steps_overdue :
    let job := wrappingSums ⟨{ shape := .session 10 }, by decide⟩
    let fed := (job.call (.input (.record 0 2 40 9))).after
      ((job.call (.input (.record 0 1 5 7))).after (job.start {}))
    let o := (job.call (.rewind [25])).after ((job.call (.rewind [100])).after fed)
    ∃ o₁ o₂ o', job.advance 30 o = .ok () o₁ ∧ job.advance 60 o₁ = .ok () o₂ ∧
      job.advance 60 o = .ok () o' ∧
      o₁.collector.items = [⟨1, ⟨5, 15⟩, 7⟩] ∧
      o'.collector.items = [⟨1, ⟨5, 15⟩, 7⟩, ⟨2, ⟨40, 50⟩, 9⟩] ∧
      o₂.collector.items = o'.collector.items ∧ o₂.agenda = o'.agenda := by
  intro job fed o
  have hfed : job.ReachedWithin (fun _ _ => True) fed :=
    ((ReachedWithin.start job {} .none []).forward (.input (.record 0 1 5 7)) (faithful 1)).forward
      (.input (.record 0 2 40 9)) (faithful 2)
  have h : job.ReachedWithin (fun _ _ => True) o :=
    (hfed.rewind [100] fun _ _ _ => trivial).rewind [25] fun _ _ _ => trivial
  obtain ⟨o₁, o₂, o', hfirst, hsecond, honce, hitems, hagenda, -⟩ :=
    advance_in_steps (a := 30) (b := 60) Aggregate.monoidal_wrappingSum.toTotal h
      (by decide +kernel) (by decide +kernel) (by decide +kernel) (by decide)
  have ho₁ : o₁ = (job.advance 30).after o := by rw [Command.after, hfirst]
  have ho' : o' = (job.advance 60).after o := by rw [Command.after, honce]
  refine ⟨o₁, o₂, o', hfirst, hsecond, honce, ?_, ?_, hitems, hagenda⟩
  · rw [ho₁]
    decide +kernel
  · rw [ho']
    decide +kernel

end Job

end Tidemark
