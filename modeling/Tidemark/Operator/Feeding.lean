import Tidemark.Operator.Basic
import Tidemark.Signal

/-! Feeding records: a record is added to every window around its timestamp that has not fired; a
record without such a window is dropped. -/

namespace Tidemark

namespace Job

open Operator

variable {κ ν α ω : Type} [Encoding κ] [Encoding α] (job : Job κ ν α ω)

/-- The time that a record is stamped with. -/
def stamp (now t : Timestamp) : Timestamp :=
  match job.settings.val.domain with
  | .event => t
  | .processing => now

omit [Encoding κ] in
/-- The window that a candidate of a key becomes: session windows merge, and the timers of the
windows that went into another are cancelled. -/
def settle (key : Bytes) (candidate : Window) : Command (Operator κ α ω) Window := do
  if job.policy.val.merges then
    let m ← onTable (Table.mergeSession job.aggregate job.policy.val.firesAt key candidate)
    modify fun o =>
      { o with agenda := m.retired.foldl (fun a w => (a.cancel ⟨key, w⟩).2) o.agenda }
    return m.window
  else return candidate

omit [Encoding κ] in
/-- Add a payload to the window of a candidate, and set its timer. -/
def accumulate (key : Bytes) (v : ν) (candidate : Window) : Command (Operator κ α ω) Unit := do
  let window ← job.settle key candidate
  let fireAt := job.policy.val.firesAt window
  let _ ← onTable (Table.add job.aggregate ⟨key, window⟩ fireAt v)
  modify fun o => { o with agenda := (o.agenda.register ⟨key, window⟩ fireAt).2 }

/-- Take in a record at clock time `now`. -/
def feed (now : Timestamp) (key : κ) (t : Timestamp) (v : ν) :
    Command (Operator κ α ω) Outcome := whileRunning do
  let t := job.stamp now t
  match job.policy.val.windowsAt t with
  | none => throw (.offTheLine t)
  | some around =>
    let o ← get
    match around.filter (!job.policy.val.isLate · o.progress) with
    | [] =>
      set { o with drops := o.drops.mark now }
      return .dropped
    | live =>
      live.forM (job.accumulate (encode key) v)
      return .accepted

end Job

end Tidemark
