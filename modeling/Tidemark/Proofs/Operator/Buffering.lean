import Tidemark.Proofs.Operator.Replay
import Tidemark.Proofs.Table.Capacity

/-! The buffer is out of sight. Whatever its capacity, in whichever order it is written to the
store, and however often it is written out between the calls, the same calls are answered alike,
emit the same and give the same images. What it holds is bounded by its capacity. -/

namespace Tidemark

open Command

/-! ### The size of the buffer -/

namespace Operator

variable {κ ν α ω β γ : Type} {n : Nat} {o : Operator κ α ω}

/-- While the operator runs, and once it is closed, it buffers at most `n` entries. -/
structure Bounded (n : Nat) (o : Operator κ α ω) : Prop where
  running : o.status = .running → o.table.Within n
  closed : o.status = .closed → o.table.buffer.size ≤ n

/-- A call leaves the operator bounded, and within `n` entries when it answers. -/
structure Confines (n : Nat) (c : Command (Operator κ α ω) β) (o : Operator κ α ω) : Prop where
  after : (c.after o).Bounded n
  size : ∀ x, c.answer o = .ok x → (c.after o).table.buffer.size ≤ n

theorem Confines.map {c : Command (Operator κ α ω) β} (h : Confines n c o) (f : β → γ) :
    Confines n (f <$> c) o := by
  constructor
  · rw [Command.after_map]
    exact h.after
  · intro y hy
    rw [Command.answer_map] at hy
    rw [Command.after_map]
    cases hx : c.answer o with
    | ok x => exact h.size x hx
    | error e =>
      rw [hx] at hy
      cases hy

/-- A step that buffers at most `n` entries, unless it fails for good. -/
def Heeds (n : Nat) (c : Command (Operator κ α ω) β) : Prop :=
  Keeps (fun _ o => o.table.Within n) (fun o => o.table.Within n) c

theorem heeds_onTable {c : Command (Table α) β}
    (hc : Keeps (fun _ => Table.Within n) (Table.Within n) c) :
    Heeds n (onTable c : Command (Operator κ α ω) β) :=
  fun o h => leads_focus (hc o.table h) (fun _ _ h => h) fun _ h => h

theorem heeds_emit (e : Emission κ ω) :
    Heeds n (emit e : Command (Operator κ α ω) Unit) :=
  keeps_focus _ fun _ _ h => h

/-- Keeping to the capacity while it runs is all that is asked of a step. -/
theorem confines_whileRunning {c : Command (Operator κ α ω) β}
    (hc : Heeds n c) (h : o.Bounded n) :
    Confines n (whileRunning c) o := by
  have hbounded : ∀ {o' : Operator κ α ω}, o'.table.Within n → o'.Bounded n :=
    fun h' => ⟨fun _ => h', fun _ => h'.size⟩
  constructor
  · refine post_after_whileRunning (fun hrun => ?_)
      (fun _ => ⟨nofun, nofun⟩) fun _ => h
    exact (hc o (h.running hrun)).mono (fun _ _ => hbounded) fun _ => hbounded
  · intro x hx
    obtain ⟨o', hok⟩ := answer_eq_ok.1 hx
    rw [Command.after, hok]
    exact ((hc o (h.running (running_of_ok hok))).of_ok (step_of_ok hok)).size

theorem Runs.confines {c : Command (Operator κ α ω) β} (hc : Runs (Heeds n) c) (h : o.Bounded n) :
    Confines n c o := by
  induction hc with
  | step hc => exact confines_whileRunning hc h
  | map _ f ih => exact ih.map f

theorem confines_close (h : o.Bounded n) : Confines n close o := by
  have hsize : (close.after o).table.buffer.size ≤ n := by
    rw [Command.after]
    by_cases hclosed : o.status = .closed
    · rw [close_of_closed hclosed]
      exact h.closed hclosed
    · rw [close_of_ne hclosed]
      simp
  refine ⟨⟨fun hrun => ?_, fun _ => hsize⟩, fun _ _ => hsize⟩
  rw [status_after_close] at hrun
  cases hrun

end Operator

namespace Job

open Operator

variable {κ ν α ω : Type} [Encoding κ] [Encoding α] (job : Job κ ν α ω) {n : Nat}

omit [Encoding κ] in
theorem performs_heeds : job.Performs SameClocks (Heeds n) where
  agenda h := h.agenda
  toComposes := composes_keeps
  ofExcept := keeps_ofExcept
  emit := heeds_emit
  read hk := by
    intro o h
    obtain ⟨c, hc, hnext⟩ := hk o
    have hstep := hc o h
    unfold Leads at hstep ⊢
    rw [run_get_bind, hnext o ⟨rfl, rfl, rfl⟩]
    exact hstep
  change _ _ _ _ := keeps_modify fun _ h => h
  mergeSession key candidate := heeds_onTable (Table.keeps_mergeSession n _ _ key candidate)
  add s fireAt v := heeds_onTable (Table.keeps_add n _ s fireAt v)
  finish s := heeds_onTable (Table.keeps_finish (Table.downward_within n) _ s)
  discard s := heeds_onTable (Table.keeps_discard (Table.downward_within n) s)
  discardSession s := heeds_onTable (Table.keeps_discardSession (Table.downward_within n) s)
  flush := heeds_onTable (Table.keeps_flush (Table.downward_within n))
  snapshot := heeds_onTable (Table.keeps_snapshot (Table.downward_within n))

theorem confines_call (c : Call κ ν) {o : Operator κ α ω} (h : o.Bounded n) :
    Confines n (job.call c) o := by
  have hdown := Table.downward_within (α := α) n
  cases c with
  | restore bs =>
    refine (confines_whileRunning ?_ h).map _
    refine (keeps_ofExcept _).bind fun i => ?_
    refine (heeds_onTable (Table.keeps_restore hdown i.state)).bind fun _ => ?_
    refine Keeps.bind (fun _ h => h) fun _ => ?_
    exact (heeds_onTable (Table.keeps_entries hdown)).bind fun _ _ h => h
  | close => exact (confines_close h).map _
  | _ => exact (job.performs_heeds.runs_call (by nofun) (by nofun)).confines h

theorem bounded_through {o : Operator κ α ω} (h : o.Bounded n) (calls : List (Call κ ν)) :
    (job.through o calls).Bounded n := by
  induction calls generalizing o with
  | nil => exact h
  | cons c calls ih => exact ih (job.confines_call c h).after

omit [Encoding κ] [Encoding α] in
theorem bounded_start (collector : Collector (Emission κ ω)) (faults : FaultPlan)
    (drains : List (DrainOrder α)) :
    (job.start collector faults drains).Bounded job.settings.val.capacity.toNat :=
  ⟨fun _ => ⟨rfl, by simp [start]⟩, fun _ => by simp [start]⟩

end Job

/-! ### Writing the buffer out between the calls -/

/-- A call that writes the buffer to the store. -/
inductive Aside where
  | prepare
  /-- Take an image. -/
  | snapshot
deriving DecidableEq, Repr

/-- A step of a run: a call that is noted, or an aside. -/
inductive Step (κ ν : Type) where
  | call (c : Call κ ν)
  | aside (a : Aside)

namespace Step

variable {κ ν : Type}

def call? : Step κ ν → Option (Call κ ν)
  | call c => some c
  | aside _ => none

/-- The calls that are noted. -/
def calls (steps : List (Step κ ν)) : List (Call κ ν) := steps.filterMap call?

end Step

namespace Operator

variable {κ α ω : Type} [Encoding κ] [Encoding α]

def aside : Aside → Command (Operator κ α ω) Unit
  | .prepare => prepare
  | .snapshot => (fun _ => ()) <$> snapshot

end Operator

namespace Job

variable {κ ν α ω : Type} [Encoding κ] [Encoding α] (job : Job κ ν α ω)

/-- What is seen of the calls of a run. `mark` is the operator as the last of them left it, so that
whatever an aside emits is put down to the next call. -/
def notes (mark o : Operator κ α ω) : List (Step κ ν) → List (Observation κ ω)
  | [] => []
  | .call c :: steps =>
    mark.observe ((job.call c).after o) ((job.call c).answer o) ::
      notes ((job.call c).after o) ((job.call c).after o) steps
  | .aside a :: steps => notes mark ((Operator.aside a).after o) steps

end Job

namespace Operator

variable {κ α ω : Type} [Encoding κ] [Encoding α] [LawfulEncoding α]
  {b₁ b₂ : List (Emission κ ω)} {o o₁ o₂ : Operator κ α ω}

omit [Encoding κ] in
/-- An aside moves the contents into the store, and does nothing else. -/
theorem exists_after_aside (a : Aside) (hrun : o.status = .running) (hread : o.table.Readable) :
    ∃ table : Table α, table.Readable ∧ table.contents = o.table.contents ∧
      (aside a).after o = { o with table } := by
  cases a with
  | prepare =>
    obtain ⟨table, hflush, hread', hcells⟩ := onTable_eq Table.refines_flush hread
    refine ⟨table, hread', hcells, ?_⟩
    rw [aside, prepare, Command.after, whileRunning_eq _ hrun, hflush]
  | snapshot =>
    obtain ⟨table, hread', hcells, hsnap⟩ := exists_snapshot hrun hread
    refine ⟨table, hread', hcells, ?_⟩
    rw [aside, Command.after_map, Command.after, hsnap]

omit [Encoding κ] in
/-- Operators that are the same while they run stay so when one of them takes an aside. -/
theorem SameWhileRunning.aside (h : SameWhileRunning b₁ b₂ o₁ o₂) (a : Aside) :
    SameWhileRunning b₁ b₂ o₁ ((aside a).after o₂) := by
  by_cases hrun : o₁.status = .running
  · have hsame := h.sameContents hrun
    obtain ⟨table, hread, hcells, hafter⟩ :=
      exists_after_aside a (h.status ▸ hrun) hsame.right
    rw [hafter]
    exact SameContents.sameWhileRunning ⟨h.toSameShown.retable o₁.table table, hsame.left, hread,
      hsame.contents.trans hcells.symm⟩
  · have hidle : (Operator.aside a).after o₂ = o₂ := by
      have hrun₂ : o₂.status ≠ .running := fun h' => hrun (h.status.trans h')
      cases a with
      | prepare => exact after_whileRunning_of_ne _ hrun₂
      | snapshot => exact (Command.after_map _ _ _).trans (after_whileRunning_of_ne _ hrun₂)
    rw [hidle]
    exact h

end Operator

namespace Job

open Operator

variable {κ ν α ω : Type} [Encoding κ] [Encoding α] [LawfulEncoding α] (job : Job κ ν α ω)
  {b₁ b₂ : List (Emission κ ω)} {o₁ o₂ mark : Operator κ α ω}

/-- What is seen of the calls is what is seen of them without the asides. -/
theorem notes_eq (steps : List (Step κ ν)) (h : SameWhileRunning b₁ b₂ o₁ o₂)
    (hmark : SameShown b₁ b₂ o₁ mark) :
    job.notes mark o₂ steps = job.observations o₁ (Step.calls steps) := by
  induction steps generalizing o₁ o₂ mark with
  | nil => rfl
  | cons step steps ih =>
    cases step with
    | call c =>
      have hstep := job.sameAnswer_call c h
      have hobserve : mark.observe ((job.call c).after o₂) ((job.call c).answer o₂) =
          o₁.observe ((job.call c).after o₁) ((job.call c).answer o₁) := by
        rw [observe, observe, hstep.answer, emittedSince_eq hmark hstep.after.toSameShown,
          hstep.after.progress, hstep.after.agenda]
      have hcalls : Step.calls (.call c :: steps) = c :: Step.calls steps := rfl
      rw [hcalls, notes, observations, hobserve, ih hstep.after hstep.after.toSameShown]
    | aside a =>
      have hcalls : Step.calls (.aside a :: steps) = Step.calls steps := rfl
      rw [hcalls, notes, ih (h.aside a) hmark]

omit [LawfulEncoding α] in
/-- Two fresh operators that differ in the settings of their buffers only. -/
theorem sameContents_start (job job' : Job κ ν α ω) (collector : Collector (Emission κ ω))
    (drains drains' : List (DrainOrder α)) :
    SameContents collector.items collector.items (job.start collector .none drains)
      (job'.start collector .none drains') := by
  have hread := (job.sound_start collector drains).readable
  have hshown : SameShown collector.items collector.items (job.start collector .none drains)
      (job'.start collector .none drains') :=
    ⟨rfl, rfl, rfl, rfl, rfl, [], by simp [start], by simp [start]⟩
  exact ⟨hshown, ⟨hread.faults, hread.entries⟩, ⟨hread.faults, hread.entries⟩, rfl⟩

/-- The buffer is out of sight: runs that make the same calls show the same, whatever the capacities,
the orders in which the buffers are written and the asides between the calls. And whenever a call is
answered, the buffer is within its capacity. -/
theorem buffer_unseen {job job' : Job κ ν α ω} (hpolicy : job'.policy = job.policy)
    (haggregate : job'.aggregate = job.aggregate)
    (hdomain : job'.settings.val.domain = job.settings.val.domain)
    (collector : Collector (Emission κ ω)) (drains drains' : List (DrainOrder α)) :
    (∀ steps : List (Step κ ν),
      job'.notes (job'.start collector .none drains') (job'.start collector .none drains') steps =
        job.observations (job.start collector .none drains) (Step.calls steps)) ∧
    ∀ (faults : FaultPlan) (calls : List (Call κ ν)) (c : Call κ ν) (x : Answer),
      (job.call c).answer (job.through (job.start collector faults drains) calls) = .ok x →
        ((job.call c).after (job.through (job.start collector faults drains) calls)).table.buffer.size
          ≤ job.settings.val.capacity.toNat := by
  constructor
  · intro steps
    have hsame := sameContents_start job job' collector drains drains'
    have hrefl := sameContents_start job job collector drains drains
    rw [job'.notes_eq steps hsame.sameWhileRunning hsame.toSameShown]
    exact job.observations_eq_of_call (call_eq_of_domain hpolicy haggregate hdomain)
      (Step.calls steps) hrefl.sameWhileRunning
  · intro faults calls c x hx
    have hbounded := job.bounded_through (job.bounded_start collector faults drains) calls
    exact (job.confines_call c hbounded).size x hx

/-- A buffer for one entry, at first written backwards, and the default one. -/
theorem buffer_unseen_narrow :
    let policy : SoundPolicy := ⟨{ shape := .session 10 }, by decide⟩
    let wide := wrappingSums policy
    let narrow : Job Int64 Int64 Int64 Int64 :=
      ⟨policy, .wrappingSum, ⟨{ capacity := 1 }, by decide⟩⟩
    let backwards : List (DrainOrder Int64) := [⟨List.reverse, List.reverse_perm⟩]
    (∀ steps : List (Step Int64 Int64),
      wide.notes (wide.start {} .none []) (wide.start {} .none []) steps =
        narrow.observations (narrow.start {} .none backwards) (Step.calls steps)) ∧
    ∀ (faults : FaultPlan) (calls : List (Call Int64 Int64)) (c : Call Int64 Int64) (x : Answer),
      (narrow.call c).answer (narrow.through (narrow.start {} faults backwards) calls) = .ok x →
        ((narrow.call c).after
          (narrow.through (narrow.start {} faults backwards) calls)).table.buffer.size ≤ 1 := by
  intro policy wide narrow backwards
  have hpolicy : wide.policy = narrow.policy := rfl
  exact buffer_unseen hpolicy rfl rfl {} backwards []

end Job

end Tidemark
