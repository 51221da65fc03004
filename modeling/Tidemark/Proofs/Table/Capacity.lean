import Tidemark.Proofs.Command
import Tidemark.Proofs.Table.Ledger

/-! How many entries a table buffers. Only `hold` adds an entry to the buffer, and whoever holds one
spills before it answers; so between two commands the buffer stays within its capacity, whatever
the store refuses. -/

namespace Tidemark

namespace Table

open Command

variable {ν α ω β : Type}

/-- The table is to buffer `n` entries, and buffers no more. -/
structure Within (n : Nat) (t : Table α) : Prop where
  capacity : t.capacity = n
  size : t.buffer.size ≤ n

/-- A property of tables that has nothing to do with the store and that a smaller buffer has no
less. -/
structure Downward (inv : Table α → Prop) : Prop where
  store : ∀ t store, inv t → inv { t with store }
  erase : ∀ t s, inv t → inv { t with buffer := t.buffer.erase s }
  empty : ∀ t drains, inv t → inv { t with buffer := ∅, drains }

theorem downward_within (n : Nat) : Downward (Within (α := α) n) where
  store _ _ h := ⟨h.capacity, h.size⟩
  erase _ _ h := ⟨h.capacity, Nat.le_trans Std.ExtTreeMap.size_erase_le h.size⟩
  empty _ _ h := ⟨h.capacity, by simp⟩

theorem downward_true : Downward fun _ : Table α => True :=
  ⟨fun _ _ _ => trivial, fun _ _ _ => trivial, fun _ _ _ => trivial⟩

variable {inv : Table α → Prop} {mild : Error → Table α → Prop}

/-- The store fails for good. -/
theorem keeps_onStore (h : Downward inv) (c : Command StateStore β) :
    Keeps mild inv (onStore c) := by
  intro t ht
  unfold Leads
  rw [run_onStore]
  cases c t.store with
  | ok x store => exact h.store t store ht
  | error e store => exact .inl rfl

theorem keeps_unbuffer (h : Downward inv) (s : Slot) : Keeps mild inv (unbuffer s) :=
  fun t ht => h.erase t s ht

theorem keeps_drain (h : Downward inv) : Keeps mild inv drain := by
  rintro ⟨store, buffer, capacity, drains⟩ ht
  cases drains with
  | nil => exact h.empty _ [] ht
  | cons d drains => exact h.empty _ drains ht

/-- So does the aggregate. -/
theorem keeps_aggregated (w : Window) (x : Except String β) :
    Keeps mild inv (aggregated w x) := by
  intro t ht
  unfold Leads
  rw [run_aggregated]
  cases x with
  | ok y => exact ht
  | error reason => exact .inl rfl

theorem keeps_sessions (h : Downward inv) (key : Bytes) : Keeps mild inv (sessions key) :=
  (keeps_onStore h _).bind fun _ => keeps_pure _

theorem keeps_discardSession (h : Downward inv) (s : Slot) : Keeps mild inv (discardSession s) :=
  (keeps_sessions h s.key).bind fun _ =>
    composes_keeps.ite _ (keeps_onStore h _) (keeps_pure ())

theorem keeps_discard (h : Downward inv) (s : Slot) : Keeps mild inv (discard s) :=
  (keeps_unbuffer h s).bind fun _ => keeps_onStore h _

theorem keeps_append (g : Aggregate ν α ω) (target : Window) (acc : Option α)
    (found : Option (Entry α)) : Keeps mild inv (append g target acc found) := by
  cases found with
  | none => exact keeps_pure acc
  | some e =>
    cases acc with
    | none => exact keeps_pure (some e.acc)
    | some acc => exact composes_keeps.map (keeps_aggregated target (g.merge acc e.acc)) some

theorem keeps_restore (h : Downward inv) (bs : Bytes) : Keeps mild inv (restore bs) :=
  (keeps_modify fun t => h.empty t t.drains).bind fun _ => keeps_onStore h _

variable [Encoding α]

theorem keeps_find (h : Downward inv) (s : Slot) : Keeps mild inv (find s) := by
  refine keeps_get fun t => ?_
  cases t.buffer[s]? with
  | none => exact keeps_onStore h _
  | some e => exact keeps_pure (some e)

theorem keeps_finish (h : Downward inv) (g : Aggregate ν α ω) (s : Slot) :
    Keeps mild inv (finish g s) := by
  refine (keeps_find h s).bind fun found => ?_
  cases found with
  | none => exact keeps_pure none
  | some e => exact composes_keeps.map (keeps_aggregated s.window (g.result e.acc)) some

theorem keeps_take (h : Downward inv) (s : Slot) : Keeps mild inv (take s) :=
  (keeps_unbuffer h s).bind fun _ => (keeps_onStore h _).bind fun _ =>
    (keeps_onStore h _).bind fun _ => keeps_pure _

theorem keeps_gather (h : Downward inv) (g : Aggregate ν α ω) (key : Bytes) (target : Window)
    (acc : Option α) (ws : List Window) : Keeps mild inv (gather g key target acc ws) :=
  composes_keeps.foldlM (fun acc w => (keeps_take h ⟨key, w⟩).bind (keeps_append g target acc))
    ws acc

theorem keeps_flush (h : Downward inv) : Keeps mild inv flush :=
  (keeps_drain h).bind fun held => composes_keeps.forM (fun _ => keeps_onStore h _) held

theorem keeps_snapshot (h : Downward inv) : Keeps mild inv snapshot :=
  (keeps_flush h).bind fun _ => keeps_onStore h _

theorem keeps_entries (h : Downward inv) : Keeps (fun _ => inv) inv entries :=
  (keeps_flush h).bind fun _ => (keeps_onStore h _).bind fun _ => keeps_ofExcept _

/-! ### Holding an entry -/

/-- A buffer that has outgrown its capacity is emptied. -/
theorem leads_spill {n : Nat} {t : Table α} (ht : t.capacity = n) :
    Leads spill t mild (Within n) := by
  show Leads (if t.capacity < t.buffer.size then flush else pure ()) t _ _
  split
  · have hdrain : Leads drain t mild (Within n) := by
      obtain ⟨l, drains, hrun, _⟩ := exists_drain t
      unfold Leads
      rw [hrun]
      exact ⟨ht, by simp⟩
    exact hdrain.bind fun held =>
      composes_keeps.forM (fun _ => keeps_onStore (downward_within n) _) held
  · next hroom => exact ⟨ht, by omega⟩

theorem keeps_add (n : Nat) (g : Aggregate ν α ω) (s : Slot) (fireAt : Timestamp) (v : ν) :
    Keeps mild (Within n) (add g s fireAt v) := by
  refine (keeps_find (downward_within n) s).bind fun found => ?_
  refine (keeps_unbuffer (downward_within n) s).bind fun _ => ?_
  refine (keeps_aggregated s.window _).bind fun acc t ht => ?_
  have hspill : Leads spill { t with buffer := t.buffer.insert s ⟨acc, fireAt⟩ }
      mild (Within n) := leads_spill ht.capacity
  exact hspill.bind fun _ _ h => h

theorem keeps_mergeSession (n : Nat) (g : Aggregate ν α ω) (firesAt : Window → Timestamp)
    (key : Bytes) (candidate : Window) :
    Keeps mild (Within n) (mergeSession g firesAt key candidate) := by
  refine (keeps_sessions (downward_within n) key).bind fun live => ?_
  apply composes_keeps.ite _ (keeps_pure _)
  refine (keeps_gather (downward_within n) g key _ none _).bind fun acc t ht => ?_
  -- until it is spilled, the buffer may hold an entry too many
  have hcapacity : Downward fun t : Table α => t.capacity = n :=
    ⟨fun _ _ h => h, fun _ _ h => h, fun _ _ h => h⟩
  have hhold : Leads (acc.forM fun acc => hold ⟨key, (Window.absorb live candidate).merged⟩
      ⟨acc, firesAt (Window.absorb live candidate).merged⟩) t mild
      fun t' => t'.capacity = n := by
    cases acc with
    | none => exact ht.capacity
    | some acc => exact ht.capacity
  refine hhold.bind fun _ _ h => ?_
  refine (keeps_onStore hcapacity _ _ h).bind fun _ _ h => ?_
  exact (leads_spill h).bind fun _ _ h => h

end Table

end Tidemark
