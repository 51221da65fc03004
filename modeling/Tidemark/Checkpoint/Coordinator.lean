import Tidemark.Checkpoint.Archive
import Tidemark.Operator.Recovery
import Tidemark.Signal

/-! Coordinators: one takes the checkpoints of a partition at its barriers, keeps the newest of
them, and restores its target from one. -/

namespace Tidemark

/-- What is checkpointed: a state `τ` that can be written out and read back. -/
structure Target (τ : Type) where
  prepare : Command τ Unit
  snapshot : Command τ Bytes
  progress : τ → Timestamp
  restore : Bytes → Command τ Unit

namespace Operator

/-- Operators can be checkpointed. -/
def target (κ α ω : Type) [Encoding α] : Target (Operator κ α ω) :=
  ⟨prepare, snapshot, progress, restore⟩

end Operator

structure Coordinator where
  partition : UInt32
  /-- How many checkpoints are kept, at least one. -/
  retained : Nat := 3
  /-- The checkpoint last taken or restored. -/
  last : Option UInt64 := none
deriving DecidableEq, Repr

namespace Coordinator

def retaining (c : Coordinator) (n : Nat) : Coordinator := { c with retained := max n 1 }

end Coordinator

/-- A coordinator, its archive and its target. -/
structure Station (τ : Type) where
  coordinator : Coordinator
  archive : Archive
  target : τ

namespace Station

variable {τ α : Type}

def onArchive (c : Command Archive α) : Command (Station τ) α :=
  c.focus archive fun s archive => { s with archive }

def onTarget (c : Command τ α) : Command (Station τ) α :=
  c.focus target fun s target => { s with target }

/-- Note the checkpoint last taken or restored. -/
def note (id : UInt64) : Command (Station τ) Unit :=
  modify fun s => { s with coordinator := { s.coordinator with last := some id } }

/-- The id must be newer than that of the last checkpoint. -/
def checkNewer (id : UInt64) : Command (Station τ) Unit := do
  match (← get).coordinator.last with
  | some last => if id ≤ last then throw (.staleBarrier id last)
  | none => pure ()

/-- Take the checkpoint that a barrier asks for: the state is saved first, then its manifest, and then
older checkpoints are removed. -/
def takeCheckpoint (t : Target τ) (b : Barrier) : Command (Station τ) Manifest := do
  checkNewer b.id
  onTarget t.prepare
  let state ← onTarget t.snapshot
  let s ← get
  let c := s.coordinator
  let manifest : Manifest :=
    ⟨b.id, b.timestamp, c.partition, t.progress s.target, .ofNat state.length⟩
  onArchive (Archive.saveState manifest.share state)
  onArchive (Archive.saveManifest manifest)
  onArchive (Archive.purge c.partition c.retained)
  note b.id
  return manifest

/-- Restore the target from a checkpoint. -/
def restoreFrom (t : Target τ) (id : UInt64) : Command (Station τ) Manifest := do
  let s ← get
  let share : Share := ⟨id, s.coordinator.partition⟩
  let manifest ← Command.ofExcept (s.archive.loadManifest share)
  let state ← Command.ofExcept (s.archive.loadState share)
  onTarget ((t.restore state).inContext s!"restore from checkpoint {id}")
  note id
  return manifest

/-- Restore the target from the newest checkpoint, if there is one. -/
def restoreLatest (t : Target τ) : Command (Station τ) (Option Manifest) := do
  let s ← get
  match ← Command.ofExcept (s.archive.latest s.coordinator.partition) with
  | none => return none
  | some id => some <$> restoreFrom t id

end Station

end Tidemark
