import Tidemark.Proofs.Command
import Tidemark.Proofs.Table.Ledger

/-! What refusals of the store do to a table. A table over a store that follows a plan of refusals
goes the way of the same table over a store that refuses nothing, until a call is refused; then the
command stops with that refusal. A plan that refuses a call some time is one whose script has a
refusal or that lists the call. -/

namespace Tidemark

open Command

namespace FaultPlan

/-- `q` is what is left of `p` after calls that were all granted. -/
inductive Grants (p : FaultPlan) : FaultPlan → Prop
  | start : Grants p p
  | call {q : FaultPlan} (h : Grants p q) (c : StoreCall) (hc : (q.next c).1 = false) :
    Grants p (q.next c).2

/-- After calls that it granted, `p` refuses `c`. -/
def Refuses (p : FaultPlan) (c : StoreCall) : Prop := ∃ q, p.Grants q ∧ (q.next c).1 = true

variable {p q : FaultPlan} {c : StoreCall}

/-- Calls that were granted have used up entries that grant. -/
theorem Grants.script_eq (h : p.Grants q) :
    ∃ fore, p.script = fore ++ q.script ∧ true ∉ fore ∧ q.listed = p.listed := by
  induction h with
  | start => exact ⟨[], rfl, by simp, rfl⟩
  | @call q _ c hc ih =>
    obtain ⟨fore, happend, hfore, hlisted⟩ := ih
    rw [next_eq] at hc ⊢
    cases hscript : q.script with
    | nil => exact ⟨fore, by rw [happend, hscript]; rfl, hfore, hlisted⟩
    | cons refused script =>
      rw [hscript] at hc
      obtain rfl : refused = false := hc
      exact ⟨fore ++ [false], by simp [happend, hscript], by simp [hfore], hlisted⟩

theorem Grants.skip {fore script : List Bool} (hfore : true ∉ fore)
    (h : p.Grants { q with script := fore ++ script }) : p.Grants { q with script } := by
  induction fore with
  | nil => exact h
  | cons refused fore ih =>
    obtain ⟨hrefused, hfore⟩ := List.ne_and_not_mem_of_not_mem_cons hfore
    exact ih hfore (h.call .get (Bool.eq_false_iff.2 hrefused.symm))

/-- A call is refused some time, when an entry of the script refuses or the list has the call. -/
theorem refuses_iff : p.Refuses c ↔ true ∈ p.script ∨ c ∈ p.listed := by
  constructor
  · rintro ⟨q, hq, hrefused⟩
    obtain ⟨fore, happend, -, hlisted⟩ := hq.script_eq
    rw [next_eq] at hrefused
    cases hscript : q.script with
    | nil =>
      rw [hscript] at hrefused
      exact .inr (hlisted ▸ List.contains_iff_mem.1 hrefused)
    | cons refused script =>
      rw [hscript] at hrefused
      obtain rfl : refused = true := hrefused
      exact .inl (by simp [happend, hscript])
  · intro h
    by_cases hscript : true ∈ p.script
    · obtain ⟨fore, script, happend, hfore⟩ := List.eq_append_cons_of_mem hscript
      refine ⟨{ p with script := true :: script }, Grants.skip hfore ?_, rfl⟩
      rw [← happend]
      exact .start
    · refine ⟨{ p with script := [] }, Grants.skip hscript ?_, ?_⟩
      · rw [List.append_nil]
        exact .start
      · exact List.contains_iff_mem.2 (h.resolve_left hscript)

end FaultPlan

/-! ### The store -/

namespace StateStore

variable {β : Type} {p : FaultPlan}

/-- The same stores, the first of which refuses nothing, while the second has followed `p` and has
refused nothing yet. -/
structure Unhindered (p : FaultPlan) (s₀ s : StateStore) : Prop where
  free : s₀.faults = .none
  granted : p.Grants s.faults
  cells : s.cells = s₀.cells
  current : s.current = s₀.current

/-- `p` refused a call. -/
def Stopped (p : FaultPlan) (e : Error) (_ _ : StateStore) : Prop :=
  ∃ c, p.Refuses c ∧ e = .refused c

/-- Under the plan `p`, `c` does what it does without refusals, until it is stopped by one. -/
abbrev Tracked (p : FaultPlan) (c : Command StateStore β) : Prop :=
  Tracks (Unhindered p) (Stopped p) c

theorem tracked_attempt (c : StoreCall) : Tracked p (attempt c) := by
  refine ⟨fun _ _ _ h => h, fun s₀ s h => ?_⟩
  rw [attempt_eq h.free]
  have hgranted := h.granted.call c
  unfold attempt
  cases hnext : s.faults.next c with
  | mk refused faults =>
    rw [hnext] at hgranted
    cases refused with
    | true => exact .stopped _ _ ⟨c, ⟨s.faults, h.granted, by rw [hnext]⟩, rfl⟩
    | false => exact .ok () ⟨h.free, hgranted rfl, h.cells, h.current⟩

theorem tracked_select (key : Bytes) : Tracked p (select key) :=
  tracks_modify (fun _ _ _ h => h) fun _ _ h => ⟨h.free, h.granted, h.cells, rfl⟩

theorem tracked_locate (state : String) (scope : Bytes) : Tracked p (locate state scope) := by
  refine ⟨fun _ _ _ h => h, fun s₀ s h => ?_⟩
  unfold locate
  rw [h.current]
  cases s₀.current with
  | some key => exact .ok _ h
  | none => exact .error _ h

/-- A change of the cells alone. -/
theorem tracked_modify (f : Cells → Cells) :
    Tracked p (modify fun s : StateStore => { s with cells := f s.cells }) :=
  tracks_modify (fun _ _ _ h => h) fun _ _ h => ⟨h.free, h.granted, congrArg f h.cells, h.current⟩

theorem tracked_snapshot : Tracked p snapshot := by
  refine (tracked_attempt .snapshot).bind fun _ => tracks_get (fun s => tracks_pure _) ?_
  intro s₀ s h
  rw [h.cells]

theorem tracked_restore (bs : Bytes) : Tracked p (restore bs) :=
  (tracked_attempt .restore).bind fun _ => (tracks_ofExcept _).bind fun cells =>
    tracked_modify fun _ => cells

end StateStore

namespace StateCell

open StateStore (Tracked tracked_attempt tracked_locate tracked_modify)

variable {β : Type} [Encoding β] {p : FaultPlan}

theorem tracked_get (c : StateCell β) (scope : Bytes) : Tracked p (c.get scope) := by
  refine (tracked_attempt .get).bind fun _ => (tracked_locate c.state scope).bind fun id => ?_
  refine tracks_get (fun s => ?_) fun s₀ s h => by rw [h.cells]
  cases s.cells[id]? with
  | none => exact tracks_pure none
  | some bs => exact composes_tracks.map (tracks_ofExcept _) some

theorem tracked_put (c : StateCell β) (scope : Bytes) (x : β) : Tracked p (c.put scope x) :=
  (tracked_attempt .put).bind fun _ => (tracked_locate c.state scope).bind fun id =>
    tracked_modify fun cells => cells.insert id (encode x)

omit [Encoding β] in
theorem tracked_clear (c : StateCell β) (scope : Bytes) : Tracked p (c.clear scope) :=
  (tracked_attempt .clear).bind fun _ => (tracked_locate c.state scope).bind fun id =>
    tracked_modify fun cells => cells.erase id

theorem tracked_entries (c : StateCell β) : Tracked p c.entries := by
  refine (tracked_attempt .entries).bind fun _ => tracks_get (fun s => tracks_ofExcept _) ?_
  intro s₀ s h
  unfold listing StateStore.cellsOf
  rw [h.cells]

end StateCell

/-! ### The table -/

namespace Table

variable {ν α ω β : Type} {p : FaultPlan}

/-- The same tables over the same stores, the first of which refuses nothing. -/
structure Unhindered (p : FaultPlan) (t₀ t : Table α) : Prop where
  store : t₀.store.Unhindered p t.store
  buffer : t.buffer = t₀.buffer
  capacity : t.capacity = t₀.capacity
  drains : t.drains = t₀.drains

/-- The store refused a call. -/
def Stopped (p : FaultPlan) (e : Error) (_ _ : Table α) : Prop :=
  ∃ c, p.Refuses c ∧ e = .store (Error.refused c).message

abbrev Tracked (p : FaultPlan) (c : Command (Table α) β) : Prop :=
  Tracks (Unhindered p) (Stopped p) c

theorem tracked_onStore {c : Command StateStore β} (hc : StateStore.Tracked p c) :
    Tracked (α := α) p (onStore c) := by
  refine hc.focus (fun _ _ _ h => h) (fun _ _ h => h.store) ?_ ?_
  · exact fun t₀ t s₀ s h hs => ⟨hs, h.buffer, h.capacity, h.drains⟩
  · rintro e t₀ t s₀ s h ⟨c, hc, rfl⟩
    exact ⟨c, hc, rfl⟩

/-- A change of the buffer alone. -/
theorem tracked_modify (f : Std.ExtTreeMap Slot (Entry α) → Std.ExtTreeMap Slot (Entry α)) :
    Tracked p (modify fun t : Table α => { t with buffer := f t.buffer }) :=
  tracks_modify (fun _ _ _ h => h) fun _ _ h =>
    ⟨h.store, congrArg f h.buffer, h.capacity, h.drains⟩

theorem tracked_unbuffer (s : Slot) : Tracked p (unbuffer (α := α) s) := by
  refine ⟨fun _ _ _ h => h, fun t₀ t h => ?_⟩
  unfold unbuffer
  rw [h.buffer]
  exact .ok _ ⟨h.store, rfl, h.capacity, h.drains⟩

theorem tracked_aggregated (w : Window) (x : Except String β) :
    Tracked (α := α) p (aggregated w x) := tracks_ofExcept _

theorem tracked_drain : Tracked (α := α) p drain := by
  refine ⟨fun _ _ _ h => h, ?_⟩
  rintro ⟨store₀, buffer₀, capacity₀, drains₀⟩ ⟨store, buffer, capacity, drains⟩ h
  obtain rfl : drains = drains₀ := h.drains
  obtain rfl : buffer = buffer₀ := h.buffer
  cases drains with
  | nil => exact .ok _ ⟨h.store, rfl, h.capacity, rfl⟩
  | cons d drains => exact .ok _ ⟨h.store, rfl, h.capacity, rfl⟩

theorem tracked_erase (s : Slot) : Tracked p (erase (α := α) s) :=
  tracked_onStore ((StateStore.tracked_select _).bind fun _ => StateCell.tracked_clear _ _)

theorem tracked_discard (s : Slot) : Tracked p (discard (α := α) s) :=
  (tracked_unbuffer s).bind fun _ => tracked_erase s

theorem tracked_sessions (key : Bytes) : Tracked p (sessions (α := α) key) :=
  (tracked_onStore ((StateStore.tracked_select key).bind fun _ => sessionCell.tracked_get _)).bind
    fun _ => tracks_pure _

theorem tracked_setSessions (key : Bytes) (ws : List Window) :
    Tracked p (setSessions (α := α) key ws) :=
  tracked_onStore ((StateStore.tracked_select key).bind fun _ =>
    composes_tracks.ite _ (sessionCell.tracked_clear _) (sessionCell.tracked_put _ ws))

theorem tracked_discardSession (s : Slot) : Tracked p (discardSession (α := α) s) :=
  (tracked_sessions s.key).bind fun _ =>
    composes_tracks.ite _ (tracked_setSessions s.key _) (tracks_pure ())

theorem tracked_append (g : Aggregate ν α ω) (target : Window) (acc : Option α)
    (found : Option (Entry α)) : Tracked p (append g target acc found) := by
  cases found with
  | none => exact tracks_pure acc
  | some e =>
    cases acc with
    | none => exact tracks_pure (some e.acc)
    | some acc => exact composes_tracks.map (tracked_aggregated target (g.merge acc e.acc)) some

theorem tracked_restore (bs : Bytes) : Tracked p (restore (α := α) bs) :=
  (tracked_modify fun _ => ∅).bind fun _ => tracked_onStore (StateStore.tracked_restore bs)

variable [Encoding α]

theorem tracked_load (s : Slot) : Tracked p (load (α := α) s) :=
  tracked_onStore ((StateStore.tracked_select s.key).bind fun _ => StateCell.tracked_get _ _)

theorem tracked_save (s : Slot) (e : Entry α) : Tracked p (save s e) :=
  tracked_onStore ((StateStore.tracked_select s.key).bind fun _ => StateCell.tracked_put _ _ e)

theorem tracked_find (s : Slot) : Tracked p (find (α := α) s) := by
  refine tracks_get (fun t => ?_) fun t₀ t h => by rw [h.buffer]
  cases t.buffer[s]? with
  | none => exact tracked_load s
  | some e => exact tracks_pure (some e)

theorem tracked_flush : Tracked p (flush (α := α)) :=
  tracked_drain.bind fun held => composes_tracks.forM (fun _ => tracked_save _ _) held

theorem tracked_spill : Tracked p (spill (α := α)) := by
  refine tracks_get (fun t => ?_) fun t₀ t h => ?_
  · exact composes_tracks.ite _ tracked_flush (tracks_pure ())
  · rw [h.buffer, h.capacity]

theorem tracked_add (g : Aggregate ν α ω) (s : Slot) (fireAt : Timestamp) (v : ν) :
    Tracked p (add g s fireAt v) := by
  refine (tracked_find s).bind fun found => (tracked_unbuffer s).bind fun _ => ?_
  refine (tracked_aggregated s.window _).bind fun acc => ?_
  refine (tracked_modify fun b => b.insert s ⟨acc, fireAt⟩).bind fun _ => ?_
  exact tracked_spill.bind fun _ => tracks_pure _

theorem tracked_finish (g : Aggregate ν α ω) (s : Slot) : Tracked p (finish g s) := by
  refine (tracked_find s).bind fun found => ?_
  cases found with
  | none => exact tracks_pure none
  | some e => exact composes_tracks.map (tracked_aggregated s.window (g.result e.acc)) some

theorem tracked_take (s : Slot) : Tracked p (take (α := α) s) :=
  (tracked_unbuffer s).bind fun _ => (tracked_load s).bind fun _ =>
    (tracked_erase s).bind fun _ => tracks_pure _

theorem tracked_gather (g : Aggregate ν α ω) (key : Bytes) (target : Window) (acc : Option α)
    (ws : List Window) : Tracked p (gather g key target acc ws) :=
  composes_tracks.foldlM (fun acc w => (tracked_take ⟨key, w⟩).bind (tracked_append g target acc))
    ws acc

theorem tracked_mergeSession (g : Aggregate ν α ω) (firesAt : Window → Timestamp) (key : Bytes)
    (candidate : Window) : Tracked p (mergeSession g firesAt key candidate) := by
  refine (tracked_sessions key).bind fun live => ?_
  apply composes_tracks.ite _ (tracks_pure _)
  refine (tracked_gather g key _ none _).bind fun acc => ?_
  have hhold : Tracked p (acc.forM fun acc => hold ⟨key, (Window.absorb live candidate).merged⟩
      ⟨acc, firesAt (Window.absorb live candidate).merged⟩) := by
    cases acc with
    | none => exact tracks_pure ()
    | some acc => exact tracked_modify fun b => b.insert _ _
  refine hhold.bind fun _ => (tracked_setSessions key _).bind fun _ => ?_
  exact tracked_spill.bind fun _ => tracks_pure _

theorem tracked_snapshot : Tracked p (snapshot (α := α)) :=
  tracked_flush.bind fun _ => tracked_onStore StateStore.tracked_snapshot

theorem tracked_entries : Tracked p (entries (α := α)) :=
  tracked_flush.bind fun _ => (tracked_onStore (entryCell α).tracked_entries).bind fun _ =>
    tracks_ofExcept _

end Table

end Tidemark
