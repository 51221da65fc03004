import Tidemark.Operator.Basic
import Tidemark.Signal

/-! Firing: progress moves by watermarks or by the clock, and every window that it reaches is
emitted and removed, in the order of the agenda. -/

namespace Tidemark

namespace Job

open Operator

variable {κ ν α ω : Type} [Encoding κ] [Encoding α] (job : Job κ ν α ω)

/-- Emit the value of a due slot, if it has one, and remove the slot. -/
def fire (t : Timer) : Command (Operator κ α ω) Unit := do
  match ← onTable (Table.finish job.aggregate t.slot) with
  | none => pure ()
  | some value =>
    let key ← Command.ofExcept (decodeKey κ t.slot.key)
    emit ⟨key, t.slot.window, value⟩
  onTable (Table.discard t.slot)
  if job.policy.val.merges then onTable (Table.discardSession t.slot)

/-- Move progress to `p` and fire what it reaches; old progress is no news. The timers leave the
agenda before the first of them fires. -/
def reach (p : Timestamp) : Command (Operator κ α ω) Unit := do
  if (← get).progress < p then
    onTable Table.flush
    let o ← get
    let (due, agenda) := o.agenda.advance p
    set { o with agenda }
    due.forM job.fire

/-- Announce progress. -/
def advance (p : Timestamp) : Command (Operator κ α ω) Unit := whileRunning (job.reach p)

/-- Take in a watermark and answer with the one to pass on, which never falls back. -/
def watermark (w : Watermark) : Command (Operator κ α ω) Watermark := whileRunning do
  let o ← get
  match job.settings.val.domain with
  | .event =>
    if o.progress < w.timestamp then
      job.reach w.timestamp
      return w
    else return ⟨o.progress⟩
  | .processing =>
    if o.forwarded < w.timestamp then
      set { o with forwarded := w.timestamp }
      return w
    else return ⟨o.forwarded⟩

/-- Take in a clock callback; one that is not later than the last is ignored. -/
def tick (t : Timestamp) : Command (Operator κ α ω) Unit := whileRunning do
  match job.settings.val.domain with
  | .event => return
  | .processing =>
    let o ← get
    if o.lastTick < t then
      set { o with lastTick := t }
      job.reach t

end Job

end Tidemark
