import Tidemark.Table.Basic
import Tidemark.Window.Merging

/-! Sessions in the table: each key's live sessions, and moving the entries of the sessions that a
candidate absorbs into the window that it grows to. -/

namespace Tidemark

/-- The window a record belongs to, and the windows that went into it. -/
structure SessionMerge where
  window : Window
  retired : List Window
deriving DecidableEq, Repr

namespace Table

variable {ν α ω : Type}

/-- The live sessions of a key. -/
def sessions (key : Bytes) : Command (Table α) (List Window) := do
  let found ← onStore do
    StateStore.select key
    sessionCell.get []
  return found.getD []

/-- Store the live sessions of a key; an empty list is not kept. -/
def setSessions (key : Bytes) (ws : List Window) : Command (Table α) Unit := onStore do
  StateStore.select key
  if ws = [] then sessionCell.clear [] else sessionCell.put [] ws

/-- Take a window off the live sessions of its key. -/
def discardSession (s : Slot) : Command (Table α) Unit := do
  let ws ← sessions s.key
  if s.window ∈ ws then setSessions s.key (ws.erase s.window)

variable [Encoding α]

/-- Take the entry of a slot out of buffer and store; the buffered one counts. -/
def take (s : Slot) : Command (Table α) (Option (Entry α)) := do
  let held ← unbuffer s
  let stored ← load s
  erase s
  return held.or stored

/-- Merge an entry behind an accumulator; without entry or without accumulator the other counts. -/
def append (g : Aggregate ν α ω) (target : Window) :
    Option α → Option (Entry α) → Command (Table α) (Option α)
  | acc, none => return acc
  | none, some e => return some e.acc
  | some acc, some e => some <$> aggregated target (g.merge acc e.acc)

/-- Take the entries of `ws` and merge them, in order, behind the accumulator `acc`. -/
def gather (g : Aggregate ν α ω) (key : Bytes) (target : Window) (acc : Option α)
    (ws : List Window) : Command (Table α) (Option α) :=
  ws.foldlM (fun acc w => do append g target acc (← take ⟨key, w⟩)) acc

/-- Fold `candidate` into the live sessions of a key. The entries of the absorbed windows become
one entry of the merged window. -/
def mergeSession (g : Aggregate ν α ω) (firesAt : Window → Timestamp) (key : Bytes)
    (candidate : Window) : Command (Table α) SessionMerge := do
  let live ← sessions key
  let m := Window.absorb live candidate
  if m.isIdle then return ⟨m.merged, []⟩
  let acc ← gather g key m.merged none m.absorbed
  acc.forM fun acc => hold ⟨key, m.merged⟩ ⟨acc, firesAt m.merged⟩
  setSessions key (Window.sort (live.filter (· ∉ m.absorbed) ++ [m.merged]))
  spill
  return ⟨m.merged, m.absorbed.filter (· ≠ m.merged)⟩

end Table

end Tidemark
