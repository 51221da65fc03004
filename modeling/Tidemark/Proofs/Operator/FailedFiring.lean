import Tidemark.Proofs.Operator.Replay
import Tidemark.Proofs.Table.Capacity

/-! Announcing progress that cannot be reached. The timers that are due leave the agenda before the
first of them fires. A failure in between stops the operator for good, with one exception: when a
key cannot be read, the operator runs on without the timers that were left. -/

namespace Tidemark

open Command

namespace Operator

variable {κ α ω β : Type} {o o₁ o₂ o₃ : Operator κ α ω}

/-- `due` has fired, as far as it held results: only the table and the emitted results changed, and
the windows that were emitted are windows of `due`, in their order. -/
structure Fires (due : List Timer) (o o' : Operator κ α ω) : Prop where
  emitted : ∃ out, o'.collector.items = o.collector.items ++ out ∧
    (out.map Emission.window).Sublist (due.map (·.slot.window))
  rest : o' = { o with table := o'.table, collector := o'.collector }

theorem Fires.trans {due due' : List Timer} (h : Fires due o₁ o₂) (h' : Fires due' o₂ o₃) :
    Fires (due ++ due') o₁ o₃ := by
  obtain ⟨out, hitems, hout⟩ := h.emitted
  obtain ⟨out', hitems', hout'⟩ := h'.emitted
  refine ⟨⟨out ++ out', ?_, ?_⟩, ?_⟩
  · rw [hitems', hitems, List.append_assoc]
  · rw [List.map_append, List.map_append]
    exact hout.append hout'
  · rw [h'.rest, h.rest]

theorem fires_retable (due : List Timer) (o : Operator κ α ω) (table : Table α) :
    Fires due o { o with table } :=
  ⟨⟨[], (List.append_nil _).symm, List.nil_sublist _⟩, rfl⟩

/-- Progress broke off at a timer whose key cannot be read: the timers before it have fired, and it
has left the agenda together with those after it. -/
structure Strands [Encoding κ] (p : Timestamp) (e : Error) (o o' : Operator κ α ω) : Prop where
  running : o'.status = .running
  news : o.progress < p
  due : ∃ fore t rest, (o.agenda.advance p).1 = fore ++ t :: rest ∧
    decodeKey κ t.slot.key = .error e ∧ Fires fore { o with agenda := (o.agenda.advance p).2 } o'

/-- A table command that can only fail for good. -/
theorem leads_onTable {c : Command (Table α) β} (hc : Keeps (fun _ _ => False) (fun _ => True) c)
    {mild : Error → Operator κ α ω → Prop} {post : Operator κ α ω → Prop}
    (h : ∀ table, post { o with table }) : Leads (onTable c) o mild post :=
  leads_focus (hc o.table trivial) (fun _ _ h => h.elim) fun table _ => h table

/-- A hand-over can only fail for good. -/
theorem leads_emit (t : Timer) (key : κ) (value : ω)
    {mild : Error → Operator κ α ω → Prop} :
    Leads (emit ⟨key, t.slot.window, value⟩) o mild (Fires [t] o) := by
  have hemit : Ensures (emit ⟨key, t.slot.window, value⟩) o True _ :=
    ensures_emit _ fun _ => trivial
  unfold Ensures at hemit
  unfold Leads
  cases hrun : emit ⟨key, t.slot.window, value⟩ o with
  | ok x o' =>
    rw [hrun] at hemit
    obtain ⟨_, hitems, hrest⟩ := hemit
    refine ⟨⟨_, hitems, .refl _⟩, ?_⟩
    rw [hrest]
  | error e o' =>
    rw [hrun] at hemit
    exact .inl hemit.1

end Operator

namespace Job

open Operator

variable {κ ν α ω : Type} [Encoding κ] [Encoding α] (job : Job κ ν α ω) {o o' : Operator κ α ω}
  {p : Timestamp} {e : Error}

/-- A timer fires, or fails for good, or its key cannot be read. -/
theorem leads_fire (t : Timer) (o : Operator κ α ω) : Leads (job.fire t) o
    (fun e o' => decodeKey κ t.slot.key = .error e ∧ Fires [] o o') (Fires [t] o) := by
  have hlast : ∀ o₁ : Operator κ α ω, Fires [t] o o₁ → Leads (do
      onTable (Table.discard t.slot)
      if job.policy.val.merges then onTable (Table.discardSession t.slot)) o₁
      (fun e o' => decodeKey κ t.slot.key = .error e ∧ Fires [] o o') (Fires [t] o) := by
    intro o₁ h₁
    refine (leads_onTable (Table.keeps_discard Table.downward_true t.slot)
      fun table => h₁.trans (fires_retable [] o₁ table)).bind fun _ o₂ h₂ => ?_
    split
    · exact leads_onTable (Table.keeps_discardSession Table.downward_true t.slot)
        fun table => h₂.trans (fires_retable [] o₂ table)
    · exact h₂
  unfold Job.fire
  refine (leads_onTable (Table.keeps_finish Table.downward_true job.aggregate t.slot)
    (fires_retable [] o)).bind fun found o₁ h₁ => ?_
  cases found with
  | none => exact hlast o₁ (h₁.trans (fires_retable [t] o₁ o₁.table))
  | some value =>
    refine (leads_ofExcept h₁ fun e he => ⟨he, h₁⟩).bind fun key o₂ h₂ => ?_
    exact ((leads_emit t key value).mono (fun _ _ h => h) fun _ h₃ => h₂.trans h₃).bind
      fun _ o₃ h₃ => hlast o₃ h₃

/-- Firing fails for good, or breaks off at a key that cannot be read. -/
theorem leads_forM_fire (due : List Timer) (o : Operator κ α ω) : Leads (due.forM job.fire) o
    (fun e o' => ∃ fore t rest, due = fore ++ t :: rest ∧ decodeKey κ t.slot.key = .error e ∧
      Fires fore o o') (Fires due o) := by
  refine leads_forM (fun fore => Fires fore o) ?_ (fires_retable [] o o.table)
  intro fore t rest hl o₁ h₁
  refine (job.leads_fire t o₁).mono ?_ fun _ h₂ => h₁.trans h₂
  rintro e o₂ ⟨hkey, h₂⟩
  have h := h₁.trans h₂
  rw [List.append_nil] at h
  exact ⟨fore, t, rest, hl, hkey, h⟩

/-- Reaching progress fails for good, or breaks off at a key that cannot be read. -/
theorem leads_reach (hrun : o.status = .running) (p : Timestamp) :
    Leads (job.reach p) o (Strands p · o) fun _ => True := by
  refine leads_get ?_
  split
  · next hp =>
    have hflush : Leads (onTable Table.flush) o (Strands p · o)
        fun o₁ => ∃ table, o₁ = { o with table } :=
      leads_onTable (Table.keeps_flush Table.downward_true) fun table => ⟨table, rfl⟩
    refine hflush.bind ?_
    rintro _ _ ⟨table, rfl⟩
    refine leads_get (leads_set ((job.leads_forM_fire _ _).mono ?_ fun _ _ => trivial))
    rintro e o' ⟨fore, t, rest, hdue, hkey, hfires⟩
    refine ⟨?_, hp, fore, t, rest, hdue, hkey, ?_⟩
    · rw [hfires.rest]
      exact hrun
    · have htable := fires_retable [] { o with agenda := (o.agenda.advance p).2 } table
      exact htable.trans hfires
  · trivial

/-- When progress cannot be announced, the operator has failed, or it is as it was, or it broke off
at a key that cannot be read. -/
theorem advance_error (h : job.advance p o = .error e o') :
    o'.status = .failed ∨ o' = o ∨ Strands p e o o' := by
  rcases cases_of_error h with hfailed | hsame | ⟨hrun, hmild, hstep⟩
  · exact .inl hfailed
  · exact .inr (.inl hsame)
  · have hlead := job.leads_reach hrun p
    unfold Leads at hlead
    rw [hstep] at hlead
    exact .inr (.inr (hlead.resolve_left hmild))

/-- Sums by words for keys. -/
def sumsByWord (policy : SoundPolicy) : Job String Int64 Int64 Int64 :=
  ⟨policy, .wrappingSum, (wrappingSums policy).settings⟩

/-- An operator with words for keys that started over from an image with the number 5 for a key. -/
def misledOperator (policy : SoundPolicy) : Operator String Int64 Int64 :=
  let job := wrappingSums policy
  let image := Operator.snapshot.answer ((job.take (.record 0 5 1 7)).after (job.start {}))
  (sumsByWord policy).through ((sumsByWord policy).start {}) [.restore (image.toOption.getD [])]

/-- It cannot read the key of the window that is due. It answers with a failure and runs on, but the
timer of the window is gone, nothing was emitted, and its entry stays. -/
theorem advance_keeps_running :
    let policy : SoundPolicy := ⟨{ shape := .tumbling 10 }, by decide⟩
    let o := misledOperator policy
    let o' := ((sumsByWord policy).advance 9).after o
    let s : Slot := ⟨encode (5 : Int64), ⟨0, 10⟩⟩
    o.status = .running ∧ o.agenda.fireAt? s = some 9 ∧
      (((sumsByWord policy).advance 9).answer o).toOption = none ∧ o'.status = .running ∧
      o'.agenda.fireAt? s = none ∧ o'.progress = 9 ∧ o'.collector.items = [] ∧
      (o'.entryAt s).isSome := by
  decide +kernel

/-- The general statement about that operator. -/
theorem advance_error_misled :
    let policy : SoundPolicy := ⟨{ shape := .tumbling 10 }, by decide⟩
    let o := misledOperator policy
    ∃ e o', (sumsByWord policy).advance 9 o = .error e o' ∧
      (o'.status = .failed ∨ o' = o ∨ Strands 9 e o o') := by
  intro policy o
  have hanswer : (((sumsByWord policy).advance 9).answer o).toOption = none := by decide +kernel
  cases h : (sumsByWord policy).advance 9 o with
  | ok x o' =>
    rw [Command.answer, h] at hanswer
    cases hanswer
  | error e o' => exact ⟨e, o', rfl, advance_error (sumsByWord policy) h⟩

end Job

end Tidemark
