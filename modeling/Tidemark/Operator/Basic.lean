import Tidemark.Agenda
import Tidemark.Collector
import Tidemark.DropMeter
import Tidemark.Operator.Image
import Tidemark.Settings
import Tidemark.Table.Sessions
import Tidemark.Window.Assignment

/-! Window operators. A `Job` is what an operator computes, an `Operator` its state in between. A
running operator stops for good at the first fatal error. -/

namespace Tidemark

/-- Keys `κ`, payloads `ν`, accumulators `α`, outputs `ω`. -/
structure Job (κ ν α ω : Type) where
  policy : SoundPolicy
  aggregate : Aggregate ν α ω
  settings : SoundSettings

namespace Job

variable {κ ν α ω : Type}

/-- A job needs a sound policy, then sound settings. -/
def create (policy : Policy) (aggregate : Aggregate ν α ω) (settings : Settings) :
    Except Error (Job κ ν α ω) := do
  let policy ← policy.check.mapError fun f => .invalidPolicy f.message
  let settings ← settings.check.mapError fun f => .invalidSettings f.message
  return ⟨policy, aggregate, settings⟩

end Job

inductive Status where
  | running
  /-- After a fatal error. -/
  | failed
  | closed
deriving DecidableEq, Repr

structure Operator (κ α ω : Type) where
  table : Table α
  agenda : Agenda := .initial
  drops : DropMeter
  lastTick : Timestamp := .first
  forwarded : Timestamp := .first
  status : Status := .running
  collector : Collector (Emission κ ω)

namespace Job

variable {κ ν α ω : Type}

/-- A fresh operator over an empty store. -/
def start (job : Job κ ν α ω) (collector : Collector (Emission κ ω))
    (faults : FaultPlan := .none) (drains : List (DrainOrder α) := []) : Operator κ α ω where
  table := { store := { faults }, capacity := job.settings.val.capacity.toNat, drains }
  drops := .ofSpan job.settings.val.rateSpan
  collector

end Job

namespace Operator

variable {κ α ω β : Type}

/-- Progress announced so far, or the first instant. -/
def progress (o : Operator κ α ω) : Timestamp := o.agenda.progress

def onTable (c : Command (Table α) β) : Command (Operator κ α ω) β :=
  c.focus table fun o table => { o with table }

/-- A collector's refusal is a failure of its own kind. -/
def emit (e : Emission κ ω) : Command (Operator κ α ω) Unit :=
  ((Collector.collect e).mapError fun e => .collector e.message).focus collector
    fun o collector => { o with collector }

/-- Run a step of a running operator, which a fatal error stops. -/
def whileRunning (c : Command (Operator κ α ω) β) : Command (Operator κ α ω) β := fun o =>
  match o.status with
  | .failed => .error .halted o
  | .closed => .error .closed o
  | .running =>
    match c o with
    | .ok x o => .ok x o
    | .error e o => .error e (if e.isFatal then { o with status := .failed } else o)

/-- The meters at `now`. -/
def meters (o : Operator κ α ω) (now : Timestamp) : Meters where
  drops := .ofNat o.drops.total
  rate := (o.drops.rate now).toBits
  lag := progressLag now (if o.progress = .first then none else some o.progress)

end Operator

end Tidemark
