import Tidemark.Command

/-! Collectors: queues that results are handed to. A collector may stop accepting, because its
receiver is gone or because its quota is spent. Queues that let the sender wait for room are left
out. -/

namespace Tidemark

/-- What a collector still accepts. -/
inductive Admission where
  | always
  /-- Nothing: the receiver is gone. -/
  | receiverGone
  /-- So many more items. -/
  | quota (left : Nat)
deriving DecidableEq, Repr

structure Collector (α : Type) where
  admission : Admission := .always
  /-- Oldest first. -/
  items : List α := []
deriving DecidableEq, Repr

namespace Collector

variable {α : Type}

/-- Hand over an item. -/
def collect (x : α) : Command (Collector α) Unit := fun c =>
  match c.admission with
  | .always => .ok () { c with items := c.items ++ [x] }
  | .receiverGone => .error .receiverGone c
  | .quota 0 => .error .quotaSpent c
  | .quota (left + 1) => .ok () ⟨.quota left, c.items ++ [x]⟩

theorem forM_collect_cons (x : α) (xs : List α) (left : Nat) (items : List α) :
    (x :: xs).forM collect ⟨.quota (left + 1), items⟩ =
      xs.forM collect ⟨.quota left, items ++ [x]⟩ := rfl

/-- Each item uses up one place of a quota. The first that finds none is refused. -/
theorem forM_collect_quota (xs : List α) (left : Nat) (items : List α) :
    xs.forM collect ⟨.quota left, items⟩ =
      if xs.length ≤ left then .ok () ⟨.quota (left - xs.length), items ++ xs⟩
      else .error .quotaSpent ⟨.quota 0, items ++ xs.take left⟩ := by
  induction xs generalizing left items with
  | nil => simp [List.forM, Command.run_pure]
  | cons x xs ih =>
    cases left with
    | zero => simp [List.forM, Command.run_bind, collect]
    | succ left => simp [forM_collect_cons, ih]

/-- Take every item. -/
def drain (c : Collector α) : List α × Collector α := (c.items, { c with items := [] })

/-- Take the oldest item. -/
def receive (c : Collector α) : Option α × Collector α :=
  (c.items.head?, { c with items := c.items.tail })

/-- The receiver leaves, and what it had not taken is lost. -/
def dropReceiver (_ : Collector α) : Collector α := ⟨.receiverGone, []⟩

end Collector

end Tidemark
