import Tidemark.Proofs.Operator.Composition
import Tidemark.Proofs.Operator.Reached

/-! Starting over from an image. Where two operators show the same and their tables have the same
contents, it makes no difference to any call where the contents are kept, how many entries are
buffered, which key is current and how many records were dropped. An operator that starts over from
an image shows the same and has the same contents as the one of which the image was taken. -/

namespace Tidemark

namespace Operator

variable {κ ν α ω β γ : Type} [Encoding κ] [Encoding α]
  {b₁ b₂ : List (Emission κ ω)} {o₁ o₂ : Operator κ α ω}

/-- The operators show the same, and what they emitted after `b₁` and `b₂` is the same. -/
structure SameShown (b₁ b₂ : List (Emission κ ω)) (o₁ o₂ : Operator κ α ω) : Prop where
  agenda : o₁.agenda = o₂.agenda
  lastTick : o₁.lastTick = o₂.lastTick
  forwarded : o₁.forwarded = o₂.forwarded
  status : o₁.status = o₂.status
  admission : o₁.collector.admission = o₂.collector.admission
  items : ∃ out, o₁.collector.items = b₁ ++ out ∧ o₂.collector.items = b₂ ++ out

/-- The operators show the same, and their tables can be read and have the same contents. -/
structure SameContents (b₁ b₂ : List (Emission κ ω)) (o₁ o₂ : Operator κ α ω) : Prop
    extends SameShown b₁ b₂ o₁ o₂ where
  left : o₁.table.Readable
  right : o₂.table.Readable
  contents : o₁.table.contents = o₂.table.contents

/-- The operators show the same, and as long as they run their tables have the same contents. -/
structure SameWhileRunning (b₁ b₂ : List (Emission κ ω)) (o₁ o₂ : Operator κ α ω) : Prop
    extends SameShown b₁ b₂ o₁ o₂ where
  sameContents : o₁.status = .running → SameContents b₁ b₂ o₁ o₂

/-- Two steps gave the same answer or failure, and left the same contents, unless they failed for
good. -/
inductive SameResult (b₁ b₂ : List (Emission κ ω)) :
    EStateM.Result Error (Operator κ α ω) β → EStateM.Result Error (Operator κ α ω) β → Prop
  | ok (x : β) {o₁ o₂ : Operator κ α ω} (h : SameContents b₁ b₂ o₁ o₂) :
    SameResult b₁ b₂ (.ok x o₁) (.ok x o₂)
  | mild (e : Error) {o₁ o₂ : Operator κ α ω} (h : SameContents b₁ b₂ o₁ o₂) :
    SameResult b₁ b₂ (.error e o₁) (.error e o₂)
  | fatal (e : Error) {o₁ o₂ : Operator κ α ω} (he : e.isFatal) (h : SameShown b₁ b₂ o₁ o₂) :
    SameResult b₁ b₂ (.error e o₁) (.error e o₂)

/-- The command goes by what is shown and by the contents: where these are the same, so is what it
does. -/
def ByContents (b₁ b₂ : List (Emission κ ω)) (c : Command (Operator κ α ω) β) : Prop :=
  ∀ o₁ o₂, SameContents b₁ b₂ o₁ o₂ → SameResult b₁ b₂ (c o₁) (c o₂)

omit [Encoding κ] [Encoding α] in
theorem SameShown.progress (h : SameShown b₁ b₂ o₁ o₂) : o₁.progress = o₂.progress :=
  congrArg Agenda.progress h.agenda

omit [Encoding κ] [Encoding α] in
theorem SameShown.sameClocks (h : SameShown b₁ b₂ o₁ o₂) : SameClocks o₁ o₂ :=
  ⟨h.agenda, h.lastTick, h.forwarded⟩

omit [Encoding κ] in
theorem SameResult.bind {c d : Command (Operator κ α ω) β} {k l : β → Command (Operator κ α ω) γ}
    (hc : SameResult b₁ b₂ (c o₁) (d o₂))
    (hk : ∀ x o₁ o₂, SameContents b₁ b₂ o₁ o₂ → SameResult b₁ b₂ (k x o₁) (l x o₂)) :
    SameResult b₁ b₂ ((c >>= k) o₁) ((d >>= l) o₂) := by
  rw [Command.run_bind, Command.run_bind]
  generalize c o₁ = r at hc
  generalize d o₂ = s at hc
  cases hc with
  | ok x h => exact hk x _ _ h
  | mild e h => exact .mild e h
  | fatal e he h => exact .fatal e he h

omit [Encoding κ] in
theorem ByContents.bind {c : Command (Operator κ α ω) β} {k : β → Command (Operator κ α ω) γ}
    (hc : ByContents b₁ b₂ c) (hk : ∀ x, ByContents b₁ b₂ (k x)) : ByContents b₁ b₂ (c >>= k) :=
  fun o₁ o₂ h => (hc o₁ o₂ h).bind hk

omit [Encoding κ] in
theorem byContents_pure (x : β) : ByContents (α := α) b₁ b₂ (pure x) := fun _ _ h => .ok x h

omit [Encoding κ] in
theorem byContents_ofExcept (x : Except Error β) :
    ByContents b₁ b₂ (Command.ofExcept x : Command (Operator κ α ω) β) := by
  intro o₁ o₂ h
  cases x with
  | ok x => exact .ok x h
  | error e => exact .mild e h

omit [Encoding κ] in
/-- What is done to the agenda and the marks goes by them alone; the drops are not compared. -/
theorem byContents_modify (f : Agenda → Agenda) (tick forward : Timestamp → Timestamp)
    (mark : DropMeter → DropMeter) : ByContents b₁ b₂ (modify fun o => { o with
      agenda := f o.agenda, lastTick := tick o.lastTick, forwarded := forward o.forwarded,
      drops := mark o.drops } : Command (Operator κ α ω) Unit) := by
  intro o₁ o₂ h
  refine .ok _ ⟨⟨?_, ?_, ?_, h.status, h.admission, h.items⟩, h.left, h.right, h.contents⟩
  · exact congrArg f h.agenda
  · exact congrArg tick h.lastTick
  · exact congrArg forward h.forwarded

omit [Encoding κ] [Encoding α] in
theorem SameShown.retable (h : SameShown b₁ b₂ o₁ o₂) (t₁ t₂ : Table α) :
    SameShown b₁ b₂ { o₁ with table := t₁ } { o₂ with table := t₂ } :=
  ⟨h.agenda, h.lastTick, h.forwarded, h.status, h.admission, h.items⟩

omit [Encoding κ] in
theorem byContents_onTable {c : Command (Table α) β} {f : Ledger β} (hc : Table.Refines c f) :
    ByContents b₁ b₂ (onTable c : Command (Operator κ α ω) β) := by
  intro o₁ o₂ h
  have h₁ := onTable_eq hc h.left
  have h₂ := onTable_eq hc h.right
  rw [h.contents] at h₁
  cases hf : f o₂.table.contents with
  | ok q =>
    rw [hf] at h₁ h₂
    obtain ⟨t₁, hrun₁, hread₁, hcells₁⟩ := h₁
    obtain ⟨t₂, hrun₂, hread₂, hcells₂⟩ := h₂
    rw [hrun₁, hrun₂]
    exact .ok q.1 ⟨h.toSameShown.retable t₁ t₂, hread₁, hread₂, hcells₁.trans hcells₂.symm⟩
  | error e =>
    rw [hf] at h₁ h₂
    obtain ⟨hfatal, t₁, hrun₁⟩ := h₁
    obtain ⟨_, t₂, hrun₂⟩ := h₂
    rw [hrun₁, hrun₂]
    exact .fatal e hfatal (h.toSameShown.retable t₁ t₂)

omit [Encoding κ] in
/-- Both collectors append the item, or refuse it for the same reason. -/
theorem byContents_emit (e : Emission κ ω) :
    ByContents b₁ b₂ (emit e : Command (Operator κ α ω) Unit) := by
  rintro ⟨t₁, a₁, d₁, l₁, f₁, s₁, ⟨adm₁, items₁⟩⟩ ⟨t₂, a₂, d₂, l₂, f₂, s₂, ⟨adm₂, items₂⟩⟩ h
  obtain ⟨⟨hagenda, hlast, hforwarded, hstatus, hadm, out, hitems₁, hitems₂⟩, hleft, hright,
    hcells⟩ := h
  simp only at hadm hitems₁ hitems₂
  subst hadm hitems₁ hitems₂
  have hout : ∃ out', b₁ ++ out ++ [e] = b₁ ++ out' ∧ b₂ ++ out ++ [e] = b₂ ++ out' :=
    ⟨out ++ [e], List.append_assoc _ _ _, List.append_assoc _ _ _⟩
  cases adm₁ with
  | always => exact .ok _ ⟨⟨hagenda, hlast, hforwarded, hstatus, rfl, hout⟩, hleft, hright, hcells⟩
  | receiverGone =>
    exact .fatal _ rfl ⟨hagenda, hlast, hforwarded, hstatus, rfl, out, rfl, rfl⟩
  | quota left =>
    cases left with
    | zero => exact .fatal _ rfl ⟨hagenda, hlast, hforwarded, hstatus, rfl, out, rfl, rfl⟩
    | succ left =>
      exact .ok _ ⟨⟨hagenda, hlast, hforwarded, hstatus, rfl, hout⟩, hleft, hright, hcells⟩

/-! ### Calls -/

/-- The same call on both gives the same answer or failure, and leaves the operators the same. -/
structure SameAnswer (b₁ b₂ : List (Emission κ ω)) (c : Command (Operator κ α ω) β)
    (o₁ o₂ : Operator κ α ω) : Prop where
  answer : c.answer o₁ = c.answer o₂
  after : SameWhileRunning b₁ b₂ (c.after o₁) (c.after o₂)

omit [Encoding κ] in
theorem sameAnswer_of_ok {c : Command (Operator κ α ω) β} {x : β} {o₁' o₂' : Operator κ α ω}
    (h₁ : c o₁ = .ok x o₁') (h₂ : c o₂ = .ok x o₂') (h : SameWhileRunning b₁ b₂ o₁' o₂') :
    SameAnswer b₁ b₂ c o₁ o₂ := by
  constructor
  · rw [Command.answer, Command.answer, h₁, h₂]
  · rw [Command.after, Command.after, h₁, h₂]
    exact h

omit [Encoding κ] in
theorem sameAnswer_of_error {c : Command (Operator κ α ω) β} {e : Error} {o₁' o₂' : Operator κ α ω}
    (h₁ : c o₁ = .error e o₁') (h₂ : c o₂ = .error e o₂') (h : SameWhileRunning b₁ b₂ o₁' o₂') :
    SameAnswer b₁ b₂ c o₁ o₂ := by
  constructor
  · rw [Command.answer, Command.answer, h₁, h₂]
  · rw [Command.after, Command.after, h₁, h₂]
    exact h

omit [Encoding κ] in
theorem SameContents.sameWhileRunning (h : SameContents b₁ b₂ o₁ o₂) :
    SameWhileRunning b₁ b₂ o₁ o₂ := ⟨h.toSameShown, fun _ => h⟩

omit [Encoding κ] in
theorem SameContents.live?_eq [LawfulEncoding α] (h : SameContents b₁ b₂ o₁ o₂) (s : Slot) :
    o₁.table.live? s = o₂.table.live? s := by
  have hcontents := congrArg (Cells.entryAt α · s) h.contents
  rwa [Table.entryAt_contents, Table.entryAt_contents] at hcontents

omit [Encoding κ] in
theorem SameContents.sessions_eq (h : SameContents b₁ b₂ o₁ o₂) (key : Bytes) :
    o₁.table.store.cells.sessions key = o₂.table.store.cells.sessions key := by
  rw [← Table.sessions_contents, ← Table.sessions_contents, h.contents]

omit [Encoding κ] in
/-- Running operators with the same contents give the same image. -/
theorem SameContents.exists_snapshot [LawfulEncoding α] (h : SameContents b₁ b₂ o₁ o₂)
    (hrun : o₁.status = .running) :
    ∃ bs, snapshot.answer o₁ = .ok bs ∧ snapshot.answer o₂ = .ok bs := by
  obtain ⟨_, _, _, hleft⟩ := Operator.exists_snapshot hrun h.left
  obtain ⟨_, _, _, hright⟩ := Operator.exists_snapshot (h.status.symm.trans hrun) h.right
  refine ⟨_, Command.answer_eq_ok.2 ⟨_, hleft⟩, ?_⟩
  rw [h.progress, h.lastTick, h.forwarded, h.contents]
  exact Command.answer_eq_ok.2 ⟨_, hright⟩

omit [Encoding κ] [Encoding α] in
theorem SameShown.failed (h : SameShown b₁ b₂ o₁ o₂) :
    SameShown b₁ b₂ { o₁ with status := .failed } { o₂ with status := .failed } :=
  ⟨h.agenda, h.lastTick, h.forwarded, rfl, h.admission, h.items⟩

omit [Encoding κ] in
/-- A step that goes by the contents makes a call that answers the same, whether it stops the
operators or not. -/
theorem ByContents.sameAnswer {c : Command (Operator κ α ω) β} (hc : ByContents b₁ b₂ c)
    (h : SameWhileRunning b₁ b₂ o₁ o₂) : SameAnswer b₁ b₂ (whileRunning c) o₁ o₂ := by
  by_cases hrun : o₁.status = .running
  · have hrun₂ : o₂.status = .running := h.status ▸ hrun
    have hstep := hc o₁ o₂ (h.sameContents hrun)
    have h₁ := whileRunning_eq c hrun
    have h₂ := whileRunning_eq c hrun₂
    generalize c o₁ = r at hstep h₁
    generalize c o₂ = s at hstep h₂
    cases hstep with
    | ok x h' => exact sameAnswer_of_ok h₁ h₂ h'.sameWhileRunning
    | mild e h' =>
      apply sameAnswer_of_error h₁ h₂
      by_cases he : e.isFatal
      · rw [if_pos he, if_pos he]
        exact ⟨h'.toSameShown.failed, fun hr => by cases hr⟩
      · rw [if_neg he, if_neg he]
        exact h'.sameWhileRunning
    | fatal e he h' =>
      apply sameAnswer_of_error h₁ h₂
      rw [if_pos he, if_pos he]
      exact ⟨h'.failed, fun hr => by cases hr⟩
  · have hrun₂ : o₂.status ≠ .running := fun h' => hrun (h.status.trans h')
    constructor
    · rw [Command.answer, Command.answer, whileRunning_of_ne c hrun, whileRunning_of_ne c hrun₂,
        h.status]
    · rw [after_whileRunning_of_ne c hrun, after_whileRunning_of_ne c hrun₂]
      exact h

omit [Encoding κ] in
theorem SameAnswer.map {c : Command (Operator κ α ω) β} (h : SameAnswer b₁ b₂ c o₁ o₂) (f : β → γ) :
    SameAnswer b₁ b₂ (f <$> c) o₁ o₂ := by
  constructor
  · rw [Command.answer_map, Command.answer_map, h.answer]
  · rw [Command.after_map, Command.after_map]
    exact h.after

omit [Encoding κ] in
/-- So are calls that run steps of this kind. -/
theorem Runs.sameAnswer {c : Command (Operator κ α ω) β} (hc : Runs (ByContents b₁ b₂) c)
    (h : SameWhileRunning b₁ b₂ o₁ o₂) : SameAnswer b₁ b₂ c o₁ o₂ := by
  induction hc with
  | step hc => exact hc.sameAnswer h
  | map _ f ih => exact ih.map f

end Operator

namespace Job

open Operator

variable {κ ν α ω : Type} [Encoding κ] [Encoding α] [LawfulEncoding α] (job : Job κ ν α ω)
  {b₁ b₂ : List (Emission κ ω)} {o₁ o₂ : Operator κ α ω}

omit [Encoding κ] in
theorem performs_byContents : job.Performs SameClocks (ByContents b₁ b₂) where
  agenda h := h.agenda
  pure := byContents_pure
  bind := ByContents.bind
  ofExcept := byContents_ofExcept
  emit := byContents_emit
  read hk := by
    intro o₁ o₂ h
    obtain ⟨c, hc, hnext⟩ := hk o₁
    rw [Command.run_get_bind, Command.run_get_bind, hnext o₁ ⟨rfl, rfl, rfl⟩, hnext o₂ h.sameClocks]
    exact hc o₁ o₂ h
  change := byContents_modify
  mergeSession key candidate := byContents_onTable (Table.refines_mergeSession _ _ key candidate)
  add s fireAt v := byContents_onTable (Table.refines_add _ s fireAt v)
  finish s := byContents_onTable (Table.refines_finish _ s)
  discard s := byContents_onTable (Table.refines_discard s)
  discardSession s := byContents_onTable (Table.refines_discardSession s)
  flush := byContents_onTable Table.refines_flush
  snapshot := byContents_onTable Table.refines_snapshot

end Job

namespace Operator

variable {κ ν α ω : Type} [Encoding κ] [Encoding α] [LawfulEncoding α]
  {b₁ b₂ : List (Emission κ ω)} {o₁ o₂ : Operator κ α ω}

/-- The last step of starting over: the agenda is built anew, and the marks are taken over. -/
def rebuild (i : Image) : Command (Operator κ α ω) Unit := do
  let entries ← onTable Table.entries
  modify fun o => { o with
    agenda := (Agenda.ofEntries entries).rewind i.progress
    lastTick := i.lastTick
    forwarded := i.forwarded }

omit [Encoding κ] [LawfulEncoding α] in
/-- From the same cells the same agenda is rebuilt. -/
theorem sameResult_rebuild (h : SameShown b₁ b₂ o₁ o₂) (h₁ : o₁.table.store.faults = .none)
    (h₂ : o₂.table.store.faults = .none) (hcells : o₁.table.contents = o₂.table.contents)
    (i : Image) : SameResult b₁ b₂ (rebuild i o₁) (rebuild i o₂) := by
  obtain ⟨t₁, hset₁, hrun₁⟩ := Table.exists_entries h₁
  obtain ⟨t₂, hset₂, hrun₂⟩ := Table.exists_entries h₂
  have hsame : t₁.contents = t₂.contents := by rw [hset₁.contents, hset₂.contents, hcells]
  unfold rebuild
  rw [Command.run_bind, Command.run_bind, run_onTable, run_onTable, hrun₁, hrun₂, hcells]
  cases hl : o₂.table.contents.listing α with
  | error e =>
    by_cases he : e.isFatal
    · exact .fatal e he (h.retable t₁ t₂)
    · -- every entry was read, only a window was not
      have hread : Table.EntriesReadable α o₂.table.contents :=
        Cells.readable_of_listing fun e' he' => by
          rw [hl] at he'
          rwa [← Except.error.inj he']
      exact .mild e ⟨h.retable t₁ t₂, ⟨hset₁.faults, by rwa [hset₁.cells, hcells]⟩,
        ⟨hset₂.faults, by rwa [hset₂.cells]⟩, hsame⟩
  | ok l =>
    have hread : Table.EntriesReadable α o₂.table.contents :=
      Cells.readable_of_listing fun e he => by
        rw [hl] at he
        cases he
    exact .ok _ ⟨⟨rfl, rfl, rfl, h.status, h.admission, h.items⟩,
      ⟨hset₁.faults, by rwa [hset₁.cells, hcells]⟩, ⟨hset₂.faults, by rwa [hset₂.cells]⟩, hsame⟩

omit [Encoding κ] [LawfulEncoding α] in
/-- Starting over from the same bytes, whatever they are. -/
theorem sameAnswer_restore (bs : Bytes) (h : SameWhileRunning b₁ b₂ o₁ o₂) :
    SameAnswer b₁ b₂ (restore bs) o₁ o₂ := by
  refine ByContents.sameAnswer (fun o₁ o₂ h => ?_) h
  cases hparse : Image.parse bs with
  | error e => exact .mild e h
  | ok i =>
    rw [Command.run_bind, Command.run_bind]
    dsimp only [Command.ofExcept]
    rw [Command.run_bind, Command.run_bind, run_onTable, run_onTable,
      Table.restore_eq h.left.faults, Table.restore_eq h.right.faults]
    cases decode Cells i.state with
    | error cause => exact .fatal _ rfl (h.toSameShown.retable _ _)
    | ok cells =>
      have hshown : SameShown b₁ b₂
          ({ o₁ with
            table := { o₁.table with buffer := ∅ }.storing cells o₁.table.store.current
            agenda := .initial } : Operator κ α ω)
          ({ o₂ with
            table := { o₂.table with buffer := ∅ }.storing cells o₂.table.store.current
            agenda := .initial } : Operator κ α ω) :=
        ⟨rfl, h.lastTick, h.forwarded, h.status, h.admission, h.items⟩
      exact sameResult_rebuild hshown h.left.faults h.right.faults rfl i

omit [Encoding κ] [LawfulEncoding α] in
theorem sameAnswer_close (h : SameWhileRunning b₁ b₂ o₁ o₂) : SameAnswer b₁ b₂ close o₁ o₂ := by
  by_cases hclosed : o₁.status = .closed
  · have h₁ := close_of_closed hclosed
    have h₂ := close_of_closed (o := o₂) (h.status ▸ hclosed)
    exact sameAnswer_of_ok h₁ h₂ h
  · obtain ⟨t₁, h₁⟩ := exists_close hclosed
    obtain ⟨t₂, h₂⟩ := exists_close (o := o₂) (h.status ▸ hclosed)
    refine sameAnswer_of_ok h₁ h₂ ⟨?_, fun hrun => by cases hrun⟩
    exact ⟨congrArg Agenda.clear h.agenda, h.lastTick, h.forwarded, rfl, h.admission, h.items⟩

end Operator

namespace Job

open Operator

variable {κ ν α ω : Type} [Encoding κ] [Encoding α] [LawfulEncoding α] (job : Job κ ν α ω)
  {b₁ b₂ : List (Emission κ ω)} {o₁ o₂ : Operator κ α ω}

theorem sameAnswer_call (c : Call κ ν) (h : SameWhileRunning b₁ b₂ o₁ o₂) :
    SameAnswer b₁ b₂ (job.call c) o₁ o₂ := by
  cases c with
  | restore bs => exact (sameAnswer_restore bs h).map _
  | close => exact (sameAnswer_close h).map _
  | _ => exact (job.performs_byContents.runs_call (by nofun) (by nofun)).sameAnswer h

omit [Encoding κ] [Encoding α] [LawfulEncoding α] in
theorem emittedSince_eq {o₁' o₂' : Operator κ α ω} (h : SameShown b₁ b₂ o₁ o₂)
    (h' : SameShown b₁ b₂ o₁' o₂') : o₁.emittedSince o₁' = o₂.emittedSince o₂' := by
  obtain ⟨out, hitems₁, hitems₂⟩ := h.items
  obtain ⟨out', hitems₁', hitems₂'⟩ := h'.items
  rw [emittedSince, emittedSince, hitems₁, hitems₂, hitems₁', hitems₂', List.length_append,
    List.length_append, List.drop_length_add_append, List.drop_length_add_append]

/-- Operators that show the same and hold the same while they run show the same in every run, also
of jobs that differ but whose calls do not. -/
theorem observations_eq_of_call {job' : Job κ ν α ω} (hcall : ∀ c, job'.call c = job.call c)
    (calls : List (Call κ ν)) (h : SameWhileRunning b₁ b₂ o₁ o₂) :
    job'.observations o₁ calls = job.observations o₂ calls := by
  induction calls generalizing o₁ o₂ with
  | nil => rfl
  | cons c calls ih =>
    have hstep := job.sameAnswer_call c h
    have hobserve : o₁.observe ((job.call c).after o₁) ((job.call c).answer o₁) =
        o₂.observe ((job.call c).after o₂) ((job.call c).answer o₂) := by
      rw [observe, observe, hstep.answer, emittedSince_eq h.toSameShown hstep.after.toSameShown,
        hstep.after.progress, hstep.after.agenda]
    rw [observations, observations, hcall, hobserve, ih hstep.after]

theorem observations_eq (calls : List (Call κ ν)) (h : SameWhileRunning b₁ b₂ o₁ o₂) :
    job.observations o₁ calls = job.observations o₂ calls :=
  job.observations_eq_of_call (fun _ => rfl) calls h

theorem sameWhileRunning_through (calls : List (Call κ ν)) (h : SameWhileRunning b₁ b₂ o₁ o₂) :
    SameWhileRunning b₁ b₂ (job.through o₁ calls) (job.through o₂ calls) := by
  induction calls generalizing o₁ o₂ with
  | nil => exact h
  | cons c calls ih => exact ih (job.sameAnswer_call c h).after

omit [LawfulEncoding α] in
/-- Of the settings, calls depend on the time domain only. -/
theorem call_eq_of_domain {job job' : Job κ ν α ω} (hpolicy : job'.policy = job.policy)
    (haggregate : job'.aggregate = job.aggregate)
    (hdomain : job'.settings.val.domain = job.settings.val.domain) (c : Call κ ν) :
    job'.call c = job.call c := by
  obtain ⟨policy, aggregate, settings⟩ := job
  obtain ⟨policy', aggregate', settings'⟩ := job'
  simp only at hpolicy haggregate hdomain
  subst hpolicy haggregate
  cases c with
  | input i =>
    cases i with
    | record now key t v =>
      have hstamp : stamp (⟨policy', aggregate', settings'⟩ : Job κ ν α ω) now t =
          stamp (⟨policy', aggregate', settings⟩ : Job κ ν α ω) now t := by
        rw [stamp, stamp, hdomain]
      simp only [call, take, feed, hstamp]
      rfl
    | advance p => rfl
    | watermark w =>
      simp only [call, take, watermark, hdomain]
      rfl
  | tick t =>
    simp only [call, tick, hdomain]
    rfl
  | prepare => rfl
  | snapshot => rfl
  | restore bs => rfl
  | rewind values => rfl
  | close => rfl

/-- An operator `r`, whatever it holds, that starts over from an image of a reached operator `p`
shows the same as `p` from then on, in every run, as long as both collectors accept the same. -/
theorem replay_of_restore {job job' : Job κ ν α ω} {p r : Operator κ α ω} (hp : job.Reached p)
    (hprun : p.status = .running) (hpolicy : job'.policy = job.policy)
    (haggregate : job'.aggregate = job.aggregate)
    (hdomain : job'.settings.val.domain = job.settings.val.domain) (hrrun : r.status = .running)
    (hfaults : r.table.store.faults = .none)
    (hadmission : r.collector.admission = p.collector.admission) :
    ∃ bs p', p.snapshot = .ok bs p' ∧ (bs.length < 2 ^ 64 → ∃ r', r.restore bs = .ok () r' ∧
      r'.agenda = p'.agenda ∧
      ∀ calls : List (Call κ ν), job'.observations r' calls = job.observations p' calls) := by
  have hsound := hp.safe hprun
  obtain ⟨table, hread, hcells, hsnap⟩ := exists_snapshot hprun hsound.readable
  refine ⟨_, _, hsnap, fun hlen => ?_⟩
  obtain ⟨table', agenda, hread', hcells', hprogress, htimely, hrestore⟩ :=
    exists_restore hrrun hfaults hsound.cells rfl hlen
  have hagenda : agenda = p.agenda :=
    Agenda.eq_of_fireAt? hprogress fun s => by rw [htimely, hsound.timely, entryAt]
  subst hagenda
  refine ⟨_, hrestore, rfl, fun calls => ?_⟩
  have hsame : SameContents r.collector.items p.collector.items
      ({ r with
        table := table', agenda := p.agenda, lastTick := p.lastTick, forwarded := p.forwarded } :
        Operator κ α ω) { p with table } :=
    ⟨⟨rfl, rfl, rfl, hrrun.trans hprun.symm, hadmission, [], by simp, by simp⟩, hread', hread,
      hcells'.trans hcells.symm⟩
  exact job.observations_eq_of_call (call_eq_of_domain hpolicy haggregate hdomain) calls
    hsame.sameWhileRunning

/-- An operator with a session of its own and a buffer for one entry starts over from another. -/
theorem replay_sessions :
    let policy : SoundPolicy := ⟨{ shape := .session 10 }, by decide⟩
    let job := wrappingSums policy
    let small : Job Int64 Int64 Int64 Int64 :=
      ⟨policy, .wrappingSum, ⟨{ capacity := 1 }, by decide⟩⟩
    let p := (job.take (.record 0 1 5 7)).after (job.start {})
    let r := (small.take (.record 0 2 90 1)).after (small.start {})
    ∃ bs p' r', p.snapshot = .ok bs p' ∧ r.restore bs = .ok () r' ∧ r'.agenda = p'.agenda ∧
      ∀ calls : List (Call Int64 Int64), small.observations r' calls = job.observations p' calls := by
  intro policy job small p r
  have hp : Reached job p := (Reached.start job {} []).call (.input (.record 0 1 5 7)) (faithful 1)
  have hr : r.status = .running := by decide +kernel
  have hpolicy : small.policy = job.policy := rfl
  obtain ⟨bs, p', hbs, h⟩ := replay_of_restore hp (by decide +kernel) hpolicy rfl rfl hr
    (by decide +kernel) (by decide +kernel)
  have hlen : (snapshot.answer p).toOption.all (·.length < 2 ^ 64) := by decide +kernel
  rw [Command.answer, hbs] at hlen
  obtain ⟨r', hr'⟩ := h (by simpa [Except.toOption] using hlen)
  exact ⟨bs, p', r', hbs, hr'⟩

end Job

end Tidemark
