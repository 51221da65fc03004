import Tidemark.Operator.Feeding
import Tidemark.Operator.Firing
import Tidemark.Operator.Recovery
import Tidemark.Proofs.Command
import Tidemark.Proofs.Encoding.RoundTrip

/-! Calls of an operator and what is seen of them. A caller sees the answer of a call, the results
that it emitted, the progress, and how many timers wait and until when. -/

namespace Tidemark

/-- What a stream brings, with the clock time at which a record arrives. -/
inductive Input (κ ν : Type) where
  | record (now : Timestamp) (key : κ) (t : Timestamp) (v : ν)
  | advance (p : Timestamp)
  | watermark (w : Watermark)

/-- A key that is fed can be read back. -/
def Input.Plain {κ ν : Type} [Encoding κ] : Input κ ν → Prop
  | .record _ key _ _ => Encoding.Faithful key
  | _ => True

theorem Input.plain {κ ν : Type} [Encoding κ] [LawfulEncoding κ] (i : Input κ ν) : i.Plain := by
  cases i with
  | record now key t v => exact faithful key
  | advance p => trivial
  | watermark w => trivial

inductive Call (κ ν : Type) where
  | input (i : Input κ ν)
  | tick (t : Timestamp)
  | prepare
  | snapshot
  | restore (bs : Bytes)
  | rewind (values : List Timestamp)
  | close

inductive Answer where
  | done
  | outcome (x : Outcome)
  | watermark (w : Watermark)
  | bytes (bs : Bytes)
deriving DecidableEq, Repr

namespace Answer

def isDropped : Except Error Answer → Bool
  | .ok (outcome .dropped) => true
  | _ => false

end Answer

/-- What is seen of a call. -/
structure Observation (κ ω : Type) where
  answer : Except Error Answer
  /-- Oldest first. -/
  emitted : List (Emission κ ω)
  progress : Timestamp
  pending : Nat
  next? : Option Timestamp

namespace Operator

variable {κ α ω : Type}

/-- The items that came after those of `o`. -/
def emittedSince (o o' : Operator κ α ω) : List (Emission κ ω) :=
  o'.collector.items.drop o.collector.items.length

def observe (o o' : Operator κ α ω) (answer : Except Error Answer) : Observation κ ω :=
  ⟨answer, o.emittedSince o', o'.progress, o'.agenda.size, o'.agenda.next?⟩

end Operator

namespace Job

variable {κ ν α ω : Type} [Encoding κ] [Encoding α] (job : Job κ ν α ω)

def take : Input κ ν → Command (Operator κ α ω) Answer
  | .record now key t v => .outcome <$> job.feed now key t v
  | .advance p => (fun _ => .done) <$> job.advance p
  | .watermark w => .watermark <$> job.watermark w

def call : Call κ ν → Command (Operator κ α ω) Answer
  | .input i => job.take i
  | .tick t => (fun _ => .done) <$> job.tick t
  | .prepare => (fun _ => .done) <$> Operator.prepare
  | .snapshot => .bytes <$> Operator.snapshot
  | .restore bs => (fun _ => .done) <$> Operator.restore bs
  | .rewind values => (fun _ => .done) <$> Operator.rewind values
  | .close => (fun _ => .done) <$> Operator.close

/-- The operator after a list of inputs; one that fails does not end the list. -/
def after (o : Operator κ α ω) (inputs : List (Input κ ν)) : Operator κ α ω :=
  inputs.foldl (fun o i => (job.take i).after o) o

/-- The operator after a list of calls. -/
def through (o : Operator κ α ω) (calls : List (Call κ ν)) : Operator κ α ω :=
  calls.foldl (fun o c => (job.call c).after o) o

theorem through_append (o : Operator κ α ω) (fore rest : List (Call κ ν)) :
    job.through o (fore ++ rest) = job.through (job.through o fore) rest := List.foldl_append

/-- The answers to a list of inputs. -/
def answers (o : Operator κ α ω) : List (Input κ ν) → List (Except Error Answer)
  | [] => []
  | i :: inputs => (job.take i).answer o :: answers ((job.take i).after o) inputs

/-- What is seen of a list of calls. -/
def observations (o : Operator κ α ω) : List (Call κ ν) → List (Observation κ ω)
  | [] => []
  | c :: calls =>
    o.observe ((job.call c).after o) ((job.call c).answer o) ::
      observations ((job.call c).after o) calls

/-- Sums modulo 2⁶⁴ of 64-bit payloads by 64-bit keys, in event time. -/
def wrappingSums (policy : SoundPolicy) : Job Int64 Int64 Int64 Int64 :=
  ⟨policy, .wrappingSum, ⟨{}, by decide⟩⟩

end Job

end Tidemark
