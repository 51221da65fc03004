import Tidemark.Aggregate
import Tidemark.StateStore

/-! The table: the entries of slots, in a buffer in front of a store. A slot is the pair of a key
and a window, under which an entry lives and a timer waits. The store keeps the accumulator and the
firing time of a slot under the scope of its window, and the live sessions of a key under the empty
scope. -/

namespace Tidemark

/-! ### Keys and slots -/

/-- Keys are kept in encoded form, which also orders them. -/
structure Slot where
  key : Bytes
  window : Window
deriving DecidableEq, Repr

namespace Slot

/-- By key, then by window. -/
def order : Slot → Slot → Ordering := compareLex (compareOn key) (compareOn window)

instance : Ord Slot := ⟨order⟩

instance : Std.TransOrd Slot :=
  inferInstanceAs (Std.TransCmp (compareLex (compareOn key) (compareOn window)))

instance : Std.LawfulEqOrd Slot where
  eq_of_compare {a b} h := by
    simp only [compare, order, compareLex, Ordering.then_eq_eq] at h
    obtain ⟨h₁, h₂⟩ := h
    cases a
    cases b
    simp only [mk.injEq]
    exact ⟨Std.LawfulEqOrd.eq_of_compare h₁, Std.LawfulEqOrd.eq_of_compare h₂⟩

end Slot

/-- The key that `bs` encodes. -/
def decodeKey (κ : Type) [Encoding κ] (bs : Bytes) : Except Error κ := decodeAs "decode key" κ bs

/-! ### Entries and where they are kept -/

/-- The accumulator of a slot and the progress that fires it. -/
structure Entry (α : Type) where
  acc : α
  fireAt : Timestamp
deriving DecidableEq, Repr

namespace Encoding

instance {α : Type} [Encoding α] : Encoding (Entry α) :=
  via (fun e => (e.acc, e.fireAt)) (fun p => ⟨p.1, p.2⟩)

end Encoding

/-- The state that holds the entries. -/
def entryCell (α : Type) : StateCell (Entry α) := ⟨"window-entries"⟩

/-- The state that holds the live sessions of each key, ascending. -/
def sessionCell : StateCell (List Window) := ⟨"session-windows"⟩

/-- An order to write buffered entries in. Each of them is written once. -/
structure DrainOrder (α : Type) where
  arrange : List (Slot × Entry α) → List (Slot × Entry α)
  perm (held : List (Slot × Entry α)) : (arrange held).Perm held

/-- The entries in front of a store: those touched last are buffered, and a buffered entry hides
the stored one of its slot. -/
structure Table (α : Type) where
  store : StateStore := {}
  buffer : Std.ExtTreeMap Slot (Entry α) := ∅
  /-- More entries than this are not kept in the buffer. -/
  capacity : Nat
  /-- The orders in which the buffer is written to the store, one time after another; by slot once
  they are used up. -/
  drains : List (DrainOrder α) := []

namespace Table

variable {α β : Type}

/-- Run a store command; its failures become store failures. -/
def onStore (c : Command StateStore β) : Command (Table α) β :=
  (c.mapError fun e => .store e.message).focus store fun t store => { t with store }

/-- Take the entry of a slot out of the buffer. -/
def unbuffer (s : Slot) : Command (Table α) (Option (Entry α)) := fun t =>
  .ok t.buffer[s]? { t with buffer := t.buffer.erase s }

/-- Put an entry into the buffer. -/
def hold (s : Slot) (e : Entry α) : Command (Table α) Unit :=
  modify fun t => { t with buffer := t.buffer.insert s e }

/-- The stored entry of a slot. -/
def load [Encoding α] (s : Slot) : Command (Table α) (Option (Entry α)) := onStore do
  StateStore.select s.key
  (entryCell α).get (encode s.window)

/-- Write the entry of a slot to the store. -/
def save [Encoding α] (s : Slot) (e : Entry α) : Command (Table α) Unit := onStore do
  StateStore.select s.key
  (entryCell α).put (encode s.window) e

/-- Remove the stored entry of a slot. -/
def erase (s : Slot) : Command (Table α) Unit := onStore do
  StateStore.select s.key
  (entryCell α).clear (encode s.window)

/-- The entry of a slot, wherever it is. -/
def find [Encoding α] (s : Slot) : Command (Table α) (Option (Entry α)) := do
  match (← get).buffer[s]? with
  | some e => return some e
  | none => load s

/-- A refusal of the aggregate is a failure of the window. -/
def aggregated (w : Window) (x : Except String β) : Command (Table α) β :=
  Command.ofExcept (x.mapError (.aggregation w))

/-- Empty the buffer; answers what was in it, in the order it is to be written. -/
def drain : Command (Table α) (List (Slot × Entry α)) := fun t =>
  match t.drains with
  | [] => .ok t.buffer.toList { t with buffer := ∅ }
  | d :: drains => .ok (d.arrange t.buffer.toList) { t with buffer := ∅, drains }

/-- Write the buffered entries to the store and empty the buffer. When a write fails, the entries
after it are lost. -/
def flush [Encoding α] : Command (Table α) Unit := do
  let held ← drain
  held.forM fun p => save p.1 p.2

/-- Flush a buffer that has outgrown its capacity. -/
def spill [Encoding α] : Command (Table α) Unit := do
  let t ← get
  if t.capacity < t.buffer.size then flush

end Table

/-! ### Slots of a table -/

namespace Table

variable {ν α ω : Type} [Encoding α]

/-- Add a payload to a slot, which fires at `fireAt` from now on. Answers whether the slot is new.
When the aggregate refuses, the entry has already left the buffer. -/
def add (g : Aggregate ν α ω) (s : Slot) (fireAt : Timestamp) (v : ν) : Command (Table α) Bool := do
  let found ← find s
  let _ ← unbuffer s
  let acc ← aggregated s.window (g.add ((found.map Entry.acc).getD g.create) v)
  hold s ⟨acc, fireAt⟩
  spill
  return found.isNone

/-- The value of a slot, if it has an entry; the entry stays. -/
def finish (g : Aggregate ν α ω) (s : Slot) : Command (Table α) (Option ω) := do
  match ← find s with
  | none => return none
  | some e => some <$> aggregated s.window (g.result e.acc)

omit [Encoding α] in
/-- Remove a slot from the buffer and the store. -/
def discard (s : Slot) : Command (Table α) Unit := do
  let _ ← unbuffer s
  erase s

end Table

/-! ### The table as a whole -/

namespace Table

variable {α : Type}

/-- Replace the contents by a snapshot; the buffer is dropped first. -/
def restore (bs : Bytes) : Command (Table α) Unit := do
  modify ({ · with buffer := ∅ })
  onStore (StateStore.restore bs)

/-- Drop every entry. -/
def clearAll : Command (Table α) Unit := do
  modify ({ · with buffer := ∅ })
  onStore StateStore.clearAll

variable [Encoding α]

/-- Flush, then encode the store. -/
def snapshot : Command (Table α) Bytes := do
  flush
  onStore StateStore.snapshot

/-- The slot of a stored entry. -/
def slotOf (c : CellId) : Except Error Slot :=
  Slot.mk c.key <$> decodeAs "decode window" Window c.scope

/-- Flush, then list every entry. -/
def entries : Command (Table α) (List (Slot × Entry α)) := do
  flush
  let found ← onStore (entryCell α).entries
  Command.ofExcept (found.mapM fun p => (·, p.2) <$> slotOf p.1)

end Table

end Tidemark
