import Tidemark.Checkpoint.FileStep
import Tidemark.Checkpoint.Manifest

/-! An archive in a directory. Checkpoint `id` of partition `p` lies in the directory `chk-id`: its
state in `partition-p.bin`, its manifest in `partition-p.meta`. A file is written under another name
and then renamed. A checkpoint counts as saved once its manifest is there. -/

namespace Tidemark

structure DirectoryArchive where
  files : FileTree
  base : Path

namespace DirectoryArchive

/-! ### Layout -/

def directoryName (id : UInt64) : String := s!"chk-{id}"

/-- Decimal digits, with no more than 64 bits, after an optional plus sign. -/
def number? (cs : List Char) : Option UInt64 :=
  let digits := match cs with
    | '+' :: ds => ds
    | ds => ds
  if digits ≠ [] ∧ digits.all Char.isDigit then
    let n := digits.foldl (fun n d => 10 * n + (d.toNat - '0'.toNat)) 0
    if n < UInt64.size then some (.ofNat n) else none
  else none

/-- The checkpoint that a directory is for. -/
def idOfName? (name : String) : Option UInt64 :=
  match name.toList with
  | 'c' :: 'h' :: 'k' :: '-' :: cs => number? cs
  | _ => none

def directory (a : DirectoryArchive) (id : UInt64) : Path := a.base ++ [directoryName id]

def statePath (a : DirectoryArchive) (s : Share) : Path :=
  a.directory s.id ++ [s!"partition-{s.partition}.bin"]

def manifestPath (a : DirectoryArchive) (s : Share) : Path :=
  a.directory s.id ++ [s!"partition-{s.partition}.meta"]

/-- Where a file is written before it is renamed. -/
def draftPath (p : Path) : Path :=
  match p.getLast? with
  | some name => p.dropLast ++ [name ++ ".tmp"]
  | none => p

/-! ### Steps -/

/-- Write a file so that it is either absent or complete. -/
def writeSteps (file : Path) (content : Bytes) : List FileStep :=
  [.makeDirectories file.dropLast, .write (draftPath file) content, .rename (draftPath file) file]

def saveStateSteps (a : DirectoryArchive) (s : Share) (state : Bytes) : List FileStep :=
  writeSteps (a.statePath s) state

def saveManifestSteps (a : DirectoryArchive) (m : Manifest) : List FileStep :=
  writeSteps (a.manifestPath m.share) (encode m)

/-- Remove a share; its manifest goes first, and the directory goes with the last share in it. -/
def eraseSteps (a : DirectoryArchive) (s : Share) : List FileStep :=
  [.remove (a.manifestPath s), .remove (a.statePath s), .removeIfEmpty (a.directory s.id)]

/-! ### Reading -/

/-- The checkpoints that directories are for, ascending; two names may be for one. -/
def checkpointIds (a : DirectoryArchive) : Except Error (List UInt64) := do
  let found ← (a.files.children a.base).mapError
    (.ofFault ("read_dir failed for " ++ a.files.text a.base))
  let dirs := found.filter (·.2 = .directory)
  return (dirs.filterMap (idOfName? ·.1)).mergeSort

/-- The saved checkpoints of a partition, ascending. -/
def list (a : DirectoryArchive) (partition : UInt32) : Except Error (List UInt64) := do
  return (← a.checkpointIds).filter fun id => a.files.isFile (a.manifestPath ⟨id, partition⟩)

def loadState (a : DirectoryArchive) (s : Share) : Except Error Bytes :=
  (a.files.readFile (a.statePath s)).mapError (.ofFault "read checkpoint partition state failed")

def loadManifest (a : DirectoryArchive) (s : Share) : Except Error Manifest := do
  let bs ← (a.files.readFile (a.manifestPath s)).mapError
    (.ofFault "read checkpoint metadata failed")
  decodeAs "deserialize checkpoint metadata failed" Manifest bs

/-! ### Writing -/

def performAll (steps : List FileStep) : Command DirectoryArchive Unit :=
  (steps.forM FileStep.perform).focus files fun a files => { a with files }

/-- The archive in the directory `base`, which is made if it is missing. -/
def create (files : FileTree) (base : Path) : Except Error DirectoryArchive := do
  let files ← (files.makeDirectories base).mapError
    (.ofFault ("failed to create checkpoint storage directory " ++ files.text base))
  return ⟨files, base⟩

def saveState (s : Share) (state : Bytes) : Command DirectoryArchive Unit := do
  Command.inContext "write checkpoint partition state failed"
    (performAll ((← get).saveStateSteps s state))

def saveManifest (m : Manifest) : Command DirectoryArchive Unit := do
  Command.inContext "write checkpoint metadata failed" (performAll ((← get).saveManifestSteps m))

/-- Remove all but the last `keep` listed checkpoints of a partition. -/
def purge (partition : UInt32) (keep : Nat) : Command DirectoryArchive Unit := do
  let a ← get
  let ids ← Command.ofExcept (a.list partition)
  (ids.take (ids.length - keep)).forM fun id => performAll (a.eraseSteps ⟨id, partition⟩)

end DirectoryArchive

end Tidemark
