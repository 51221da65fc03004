import Std.Data.ExtTreeMap
import Tidemark.Checkpoint.DirectoryArchive

/-! Archives: the states and the manifests of all shares, in memory or in a directory, behind the
same commands. A share counts as saved once it has a manifest. Commands come one after another;
threads that share an archive are left out, and so are the locks between them. -/

namespace Tidemark

/-! ### In memory -/

structure MemoryArchive where
  states : Std.ExtTreeMap Share Bytes := ∅
  manifests : Std.ExtTreeMap Share Manifest := ∅

namespace MemoryArchive

def saveState (a : MemoryArchive) (s : Share) (state : Bytes) : MemoryArchive :=
  { a with states := a.states.insert s state }

def saveManifest (a : MemoryArchive) (m : Manifest) : MemoryArchive :=
  { a with manifests := a.manifests.insert m.share m }

/-- The saved checkpoints of a partition, ascending. -/
def list (a : MemoryArchive) (partition : UInt32) : List UInt64 :=
  (a.manifests.keys.filter (·.partition = partition)).map Share.id

/-- Remove a share. -/
def erase (a : MemoryArchive) (s : Share) : MemoryArchive :=
  { states := a.states.erase s, manifests := a.manifests.erase s }

/-- Remove all but the last `keep` checkpoints of a partition. -/
def purge (a : MemoryArchive) (partition : UInt32) (keep : Nat) : MemoryArchive :=
  let ids := a.list partition
  (ids.take (ids.length - keep)).foldl (fun a id => a.erase ⟨id, partition⟩) a

end MemoryArchive

/-! ### Of either kind -/

inductive Archive where
  | memory (archive : MemoryArchive)
  | directory (archive : DirectoryArchive)

namespace Archive

/-- Nothing saved, in memory. -/
def inMemory : Archive := .memory {}

/-- Nothing saved, in an empty directory. -/
def inDirectory (top : String) : Archive := .directory ⟨.empty top, []⟩

/-- Change an archive of either kind. -/
def change (f : MemoryArchive → MemoryArchive) (c : Command DirectoryArchive Unit) :
    Command Archive Unit
  | .memory a => .ok () (.memory (f a))
  | .directory a =>
    match c a with
    | .ok x a => .ok x (.directory a)
    | .error e a => .error e (.directory a)

def saveState (s : Share) (state : Bytes) : Command Archive Unit :=
  change (·.saveState s state) (DirectoryArchive.saveState s state)

def saveManifest (m : Manifest) : Command Archive Unit :=
  change (·.saveManifest m) (DirectoryArchive.saveManifest m)

/-- Remove all but the last `keep` checkpoints of a partition. -/
def purge (partition : UInt32) (keep : Nat) : Command Archive Unit :=
  change (·.purge partition keep) (DirectoryArchive.purge partition keep)

def loadState (s : Share) : Archive → Except Error Bytes
  | .memory a =>
    match a.states[s]? with
    | some state => .ok state
    | none => .error (.noState s.id s.partition)
  | .directory a => a.loadState s

def loadManifest (s : Share) : Archive → Except Error Manifest
  | .memory a =>
    match a.manifests[s]? with
    | some m => .ok m
    | none => .error (.noManifest s.id s.partition)
  | .directory a => a.loadManifest s

/-- The saved checkpoints of a partition, ascending. -/
def list (partition : UInt32) : Archive → Except Error (List UInt64)
  | .memory a => .ok (a.list partition)
  | .directory a => a.list partition

/-- The newest saved checkpoint of a partition. -/
def latest (partition : UInt32) (a : Archive) : Except Error (Option UInt64) :=
  List.getLast? <$> a.list partition

end Archive

end Tidemark
