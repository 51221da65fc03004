import Std.Data.ExtTreeMap
import Tidemark.Command
import Tidemark.Encoding.Compound

/-! Keyed state: a finite map from cells to encoded values. A cell is named by a state, the key it
belongs to and a scope under that key; access goes through the current key. A snapshot is the
encoded map, so equal maps have equal snapshots. -/

namespace Tidemark

/-! ### Cells -/

structure CellId where
  state : String
  key : Bytes
  scope : Bytes
deriving DecidableEq, Repr

namespace CellId

/-- By state, then key, then scope. -/
def order : CellId → CellId → Ordering :=
  compareLex (compareOn state) (compareLex (compareOn key) (compareOn scope))

instance : Ord CellId := ⟨order⟩

instance : Std.TransOrd CellId :=
  inferInstanceAs (Std.TransCmp
    (compareLex (compareOn state) (compareLex (compareOn key) (compareOn scope))))

instance : Std.LawfulEqOrd CellId where
  eq_of_compare {a b} h := by
    simp only [compare, order, compareLex, Ordering.then_eq_eq] at h
    obtain ⟨h₁, h₂, h₃⟩ := h
    cases a
    cases b
    simp only [mk.injEq]
    exact ⟨Std.LawfulEqOrd.eq_of_compare h₁, Std.LawfulEqOrd.eq_of_compare h₂,
      Std.LawfulEqOrd.eq_of_compare h₃⟩

end CellId

/-- The encoded values of the cells that hold one. -/
abbrev Cells := Std.ExtTreeMap CellId Bytes

namespace Encoding

instance : Encoding CellId :=
  via (fun c => (c.state, c.key, c.scope)) (fun q => ⟨q.1, q.2.1, q.2.2⟩)

/-- The cells in ascending order. Read back, the last value of a repeated cell wins. -/
instance : Encoding Cells := via Std.ExtTreeMap.toList (fun l : List (CellId × Bytes) => .ofList l)

end Encoding

/-! ### Refusals -/

/-- Which coming calls are refused: first as the script says, one call after another, then every
call that is listed. -/
structure FaultPlan where
  script : List Bool := []
  listed : List StoreCall := []
deriving DecidableEq, Repr

namespace FaultPlan

/-- Nothing is refused. -/
def none : FaultPlan := {}

/-- Whether the next call is refused, and the plan after it. -/
def next (p : FaultPlan) (call : StoreCall) : Bool × FaultPlan :=
  match p.script with
  | refused :: script => (refused, { p with script })
  | [] => (p.listed.contains call, p)

@[simp] theorem next_none (call : StoreCall) : none.next call = (false, none) := rfl

/-- A call uses up one entry of the script, and that entry answers. The list answers once the
script is used up. -/
theorem next_eq (p : FaultPlan) (call : StoreCall) :
    p.next call =
      (p.script.head?.getD (p.listed.contains call), { p with script := p.script.tail }) := by
  obtain ⟨script, listed⟩ := p
  cases script <;> rfl

end FaultPlan

/-! ### The store -/

structure StateStore where
  cells : Cells := ∅
  /-- The key that access goes through. -/
  current : Option Bytes := none
  faults : FaultPlan := .none

/-- A state by name, with values of type `β`. -/
structure StateCell (β : Type) where
  state : String
deriving DecidableEq, Repr

namespace StateStore

/-- Make `key` the current key. -/
def select (key : Bytes) : Command StateStore Unit := modify ({ · with current := some key })

/-- Pass the fault plan. -/
def attempt (call : StoreCall) : Command StateStore Unit := fun s =>
  let (refused, faults) := s.faults.next call
  if refused then .error (.refused call) { s with faults } else .ok () { s with faults }

/-- The cell of `state` under the current key. -/
def locate (state : String) (scope : Bytes) : Command StateStore CellId := fun s =>
  match s.current with
  | some key => .ok ⟨state, key, scope⟩ s
  | none => .error .noCurrentKey s

/-- The value that `bs` encodes for `state`. -/
def read (β : Type) [Encoding β] (state : String) (bs : Bytes) : Except Error β :=
  decodeAs ("decode state '" ++ state ++ "'") β bs

/-- Every cell of `state`, in order of key, then scope. -/
def cellsOf (s : StateStore) (state : String) : List (CellId × Bytes) :=
  s.cells.toList.filter (·.1.state = state)

/-- The encoded form of all cells. -/
def snapshot : Command StateStore Bytes := do
  attempt .snapshot
  return encode (← get).cells

/-- Replace all cells by those of a snapshot; the current key stays. -/
def restore (bs : Bytes) : Command StateStore Unit := do
  attempt .restore
  let cells ← Command.ofExcept ((decode Cells bs).mapError .notASnapshot)
  modify ({ · with cells })

/-- Remove every cell and the current key. -/
def clearAll : Command StateStore Unit := modify ({ · with cells := ∅, current := none })

end StateStore

namespace StateCell

variable {β : Type} [Encoding β]

/-- The value under the current key and `scope`. -/
def get (c : StateCell β) (scope : Bytes) : Command StateStore (Option β) := do
  StateStore.attempt .get
  let id ← StateStore.locate c.state scope
  match (← MonadState.get).cells[id]? with
  | none => return none
  | some bs => some <$> Command.ofExcept (StateStore.read β c.state bs)

def put (c : StateCell β) (scope : Bytes) (x : β) : Command StateStore Unit := do
  StateStore.attempt .put
  let id ← StateStore.locate c.state scope
  modify fun s => { s with cells := s.cells.insert id (encode x) }

omit [Encoding β] in
def clear (c : StateCell β) (scope : Bytes) : Command StateStore Unit := do
  StateStore.attempt .clear
  let id ← StateStore.locate c.state scope
  modify fun s => { s with cells := s.cells.erase id }

/-- Every value of the state with its key and scope, in order of key, then scope. -/
def listing (c : StateCell β) (s : StateStore) : Except Error (List (CellId × β)) :=
  (s.cellsOf c.state).mapM fun p => (p.1, ·) <$> StateStore.read β c.state p.2

def entries (c : StateCell β) : Command StateStore (List (CellId × β)) := do
  StateStore.attempt .entries
  Command.ofExcept (c.listing (← MonadState.get))

end StateCell

end Tidemark
