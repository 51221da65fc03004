import Std.Data.ExtTreeMap
import Tidemark.Command

/-! A tree of directories and files, as a map from paths to nodes. An operation takes effect as a
whole or is refused, and then changes nothing. It is refused for what the tree shows; rights and
space are left out. -/

namespace Tidemark

/-- Names from the top directory down; the top itself is the empty path. -/
abbrev Path := List String

inductive Node where
  | directory
  | file (content : Bytes)
deriving DecidableEq, Repr

structure FileTree where
  /-- The text of the top directory in messages. -/
  top : String
  nodes : Std.ExtTreeMap Path Node

namespace FileTree

/-- An empty top directory. -/
def empty (top : String) : FileTree := ⟨top, (∅ : Std.ExtTreeMap Path Node).insert [] .directory⟩

/-- The text of a path in messages. -/
def text (t : FileTree) (p : Path) : String := "/".intercalate (t.top :: p)

/-- What keeps `here` and the directories below it, towards the last name of the path, from being
walked through. -/
def blockFrom (t : FileTree) (here : Path) : Path → Option FileFault
  | [] => none
  | name :: rest =>
    match t.nodes[here]? with
    | none => some .notFound
    | some (.file _) => some .notADirectory
    | some .directory => t.blockFrom (here ++ [name]) rest

/-- What keeps the directories above `p` from being walked through. -/
def block? (t : FileTree) (p : Path) : Option FileFault := t.blockFrom [] p

/-- The node at a path. -/
def find (t : FileTree) (p : Path) : Except FileFault Node :=
  match t.block? p, t.nodes[p]? with
  | some fault, _ => .error fault
  | none, none => .error .notFound
  | none, some n => .ok n

def isFile (t : FileTree) (p : Path) : Bool :=
  match t.find p with
  | .ok (.file _) => true
  | _ => false

def isPresent (t : FileTree) (p : Path) : Bool := (t.find p).isOk

/-- The names in a directory, ascending, with their nodes. -/
def children (t : FileTree) (p : Path) : Except FileFault (List (String × Node)) :=
  match t.find p with
  | .error fault => .error fault
  | .ok (.file _) => .error .notADirectory
  | .ok .directory => .ok <| t.nodes.toList.filterMap fun (q, n) =>
      match q.getLast? with
      | some name => if q.dropLast = p then some (name, n) else none
      | none => none

def readFile (t : FileTree) (p : Path) : Except FileFault Bytes :=
  match t.find p with
  | .error fault => .error fault
  | .ok .directory => .error .isADirectory
  | .ok (.file content) => .ok content

def put (t : FileTree) (p : Path) (n : Node) : FileTree := { t with nodes := t.nodes.insert p n }

def erase (t : FileTree) (p : Path) : FileTree := { t with nodes := t.nodes.erase p }

/-- Make `here`, and the directories below it along the path, where they are missing. -/
def makeFrom (t : FileTree) (here : Path) : Path → Except FileFault FileTree
  | [] =>
    match t.nodes[here]? with
    | some (.file _) => .error .alreadyExists
    | _ => .ok (t.put here .directory)
  | name :: rest =>
    match t.nodes[here]? with
    | some (.file _) => .error .notADirectory
    | _ => (t.put here .directory).makeFrom (here ++ [name]) rest

/-- Make a directory and those above it, where they are missing. -/
def makeDirectories (t : FileTree) (p : Path) : Except FileFault FileTree := t.makeFrom [] p

/-- Make or replace a file. -/
def writeFile (t : FileTree) (p : Path) (content : Bytes) : Except FileFault FileTree :=
  match t.find p with
  | .ok .directory => .error .isADirectory
  | .ok (.file _) => .ok (t.put p (.file content))
  | .error fault => if (t.block? p).isSome then .error fault else .ok (t.put p (.file content))

/-- Move a file to another path, in place of a file that is there. -/
def rename (t : FileTree) (source target : Path) : Except FileFault FileTree :=
  match t.readFile source with
  | .error fault => .error fault
  | .ok content => (t.writeFile target content).map (·.erase source)

def removeFile (t : FileTree) (p : Path) : Except FileFault FileTree :=
  match t.readFile p with
  | .error fault => .error fault
  | .ok _ => .ok (t.erase p)

/-- Remove an empty directory. -/
def removeDirectory (t : FileTree) (p : Path) : Except FileFault FileTree :=
  match t.children p with
  | .error fault => .error fault
  | .ok [] => .ok (t.erase p)
  | .ok _ => .error .notEmpty

/-- Remove a node with everything below it. -/
def removeAll (t : FileTree) (p : Path) : Except FileFault FileTree :=
  match t.find p with
  | .error fault => .error fault
  | .ok _ => .ok { t with nodes := t.nodes.filter fun q _ => !p.isPrefixOf q }

end FileTree

end Tidemark
