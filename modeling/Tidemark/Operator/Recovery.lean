import Tidemark.Operator.Basic

/-! Images of an operator: taking one, starting over from one, and closing. The agenda is rebuilt
from the restored entries. -/

namespace Tidemark

namespace Agenda

/-- Nothing announced, and a timer for every entry. -/
def ofEntries {α : Type} (es : List (Slot × Entry α)) : Agenda :=
  es.foldl (fun a p => (a.register p.1 p.2.fireAt).2) .initial

end Agenda

namespace Operator

variable {κ α ω : Type}

/-- Set progress to the least of the given values; without values it stays. -/
def rewind (values : List Timestamp) : Command (Operator κ α ω) Unit := whileRunning do
  match values.min? with
  | none => return
  | some p => modify fun o => { o with agenda := o.agenda.rewind p }

/-- Drop every timer and entry without firing. A closed operator stays closed. -/
def close : Command (Operator κ α ω) Unit := do
  if (← get).status = .closed then return
  modify fun o => { o with agenda := o.agenda.clear }
  onTable Table.clearAll
  modify ({ · with status := .closed })

variable [Encoding α]

/-- Write the buffer to the store. -/
def prepare : Command (Operator κ α ω) Unit := whileRunning (onTable Table.flush)

/-- The encoded image. -/
def snapshot : Command (Operator κ α ω) Bytes := whileRunning do
  let state ← onTable Table.snapshot
  let o ← get
  return encode (⟨o.progress, o.lastTick, o.forwarded, state⟩ : Image)

/-- Start over from an encoded image. -/
def restore (bs : Bytes) : Command (Operator κ α ω) Unit := whileRunning do
  let image ← Command.ofExcept (Image.parse bs)
  onTable (Table.restore image.state)
  modify ({ · with agenda := .initial })
  let entries ← onTable Table.entries
  modify fun o =>
    { o with
      agenda := (Agenda.ofEntries entries).rewind image.progress
      lastTick := image.lastTick
      forwarded := image.forwarded }

end Operator

end Tidemark
