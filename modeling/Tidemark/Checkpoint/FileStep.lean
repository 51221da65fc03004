import Tidemark.Checkpoint.FileTree

/-! Steps on a file tree. What an archive does to its files is a list of steps, performed one after
another, so that it can be cut short between any two. -/

namespace Tidemark

inductive FileStep where
  | makeDirectories (dir : Path)
  | write (file : Path) (content : Bytes)
  | rename (source target : Path)
  /-- Remove a file if it is there. -/
  | remove (file : Path)
  /-- Remove a directory if nothing is in it. -/
  | removeIfEmpty (dir : Path)
deriving DecidableEq, Repr

namespace FileStep

/-- The tree after a step. -/
def apply (t : FileTree) : FileStep → Except Error FileTree
  | makeDirectories dir =>
    (t.makeDirectories dir).mapError (.ofFault ("failed to create checkpoint dir " ++ t.text dir))
  | write file content =>
    (t.writeFile file content).mapError (.ofFault ("write " ++ t.text file ++ " failed"))
  | rename source target =>
    (t.rename source target).mapError (.ofFault ("rename to " ++ t.text target ++ " failed"))
  | remove file =>
    if t.isPresent file then
      (t.removeFile file).mapError (.ofFault ("failed to remove " ++ t.text file))
    else .ok t
  | removeIfEmpty dir => do
    match ← (t.children dir).mapError .file with
    | [] => (t.removeDirectory dir).mapError (.ofFault ("failed to remove " ++ t.text dir))
    | _ :: _ => .ok t

def perform (s : FileStep) : Command FileTree Unit := fun t =>
  match s.apply t with
  | .ok t => .ok () t
  | .error e => .error e t

end FileStep

end Tidemark
