import Tidemark.Encoding.Basic
import Tidemark.Window.Interval

/-! Why an operation was refused. An error may be wrapped in contexts; what it says is its
outermost text, what it is lies at the bottom. -/

namespace Tidemark

/-- The calls of a state store that may be made to fail. -/
inductive StoreCall where
  | get | put | clear | entries | snapshot | restore
deriving DecidableEq, Repr

namespace StoreCall

def name : StoreCall → String
  | get => "get"
  | put => "put"
  | clear => "clear"
  | entries => "entries"
  | snapshot => "snapshot"
  | restore => "restore"

end StoreCall

/-- Why a file operation was refused. -/
inductive FileFault where
  | notFound | alreadyExists | notADirectory | isADirectory | notEmpty
deriving DecidableEq, Repr

namespace FileFault

def name : FileFault → String
  | notFound => "NotFound"
  | alreadyExists => "AlreadyExists"
  | notADirectory => "NotADirectory"
  | isADirectory => "IsADirectory"
  | notEmpty => "DirectoryNotEmpty"

end FileFault

inductive Error where
  | invalidPolicy (reason : String)
  | invalidSettings (reason : String)
  | aggregation (window : Window) (reason : String)
  | store (reason : String)
  | collector (reason : String)
  /-- Some window of the record's timestamp leaves the time line. -/
  | offTheLine (timestamp : Timestamp)
  /-- The operator failed earlier. -/
  | halted
  | closed
  | noCurrentKey
  /-- The store was told to refuse this call. -/
  | refused (call : StoreCall)
  /-- The bytes are no snapshot of a store. -/
  | notASnapshot (cause : DecodeError)
  | decode (cause : DecodeError)
  | receiverGone
  | quotaSpent
  | staleBarrier (id last : UInt64)
  | noManifest (id : UInt64) (partition : UInt32)
  | noState (id : UInt64) (partition : UInt32)
  | file (fault : FileFault)
  | inContext (context : String) (cause : Error)
deriving Repr

namespace Error

/-- The outermost text. -/
def message : Error → String
  | invalidPolicy reason => "invalid window spec: " ++ reason
  | invalidSettings reason => "invalid window processor config: " ++ reason
  | aggregation window reason => "aggregation failed for " ++ window.text ++ ": " ++ reason
  | store reason => "state backend failure: " ++ reason
  | collector reason => "collector rejected window output: " ++ reason
  | offTheLine t => s!"timestamp {t} has no representable window"
  | halted => "window processor halted after a fatal error"
  | closed => "window processor is closed"
  | noCurrentKey => "No current key set"
  | refused call => "injected " ++ call.name ++ " failure"
  | notASnapshot cause => "Restore failed: " ++ cause.message
  | decode cause => cause.message
  | receiverGone => "Channel closed: receiver dropped"
  | quotaSpent => "sink unavailable"
  | staleBarrier id last => s!"out-of-order barrier {id} after checkpoint {last}"
  | noManifest id partition => s!"checkpoint {id} not found for partition {partition}"
  | noState id partition => s!"state of partition {partition} not found for checkpoint {id}"
  | file fault => fault.name
  | inContext context _ => context

/-- The error without its contexts. -/
def root : Error → Error
  | inContext _ cause => cause.root
  | e => e

/-- Fatal errors leave an operator's state in doubt. -/
def isFatal (e : Error) : Bool :=
  match e.root with
  | aggregation .. | store _ | collector _ => true
  | _ => false

/-- A file operation was refused while doing what `context` says. -/
def ofFault (context : String) (fault : FileFault) : Error := inContext context (file fault)

@[simp] theorem isFatal_inContext (context : String) (e : Error) :
    (inContext context e).isFatal = e.isFatal := rfl

end Error

/-- The value that `bs` encodes; `context` says what it should have been. -/
def decodeAs (context : String) (α : Type) [Encoding α] (bs : Bytes) : Except Error α :=
  (decode α bs).mapError fun cause => .inContext context (.decode cause)

end Tidemark
