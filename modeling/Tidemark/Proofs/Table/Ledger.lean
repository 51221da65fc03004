import Tidemark.Proofs.Table.Contents

/-! A table without buffer. A ledger command works on the contents alone; a table command refines
one when, on a table that can be read, it answers or fails as the ledger command does on the
contents, and leaves the same contents behind. Buffering, spilling and the current key of the store
are thereby out of sight. -/

namespace Tidemark

abbrev Ledger (β : Type) := StateT Cells (Except Error) β

namespace Ledger

variable {ν α ω β γ : Type}

theorem run_bind (f : Ledger β) (k : β → Ledger γ) (c : Cells) :
    (f >>= k) c =
      match f c with
      | .ok (x, c') => k x c'
      | .error e => .error e := by
  show (f c >>= fun q => k q.1 q.2) = _
  cases f c <;> rfl

theorem run_pure (x : β) (c : Cells) : (pure x : Ledger β) c = .ok (x, c) := rfl

def ofExcept (x : Except Error β) : Ledger β := fun c => x.map (·, c)

def aggregated (w : Window) (x : Except String β) : Ledger β :=
  ofExcept (x.mapError (.aggregation w))

theorem run_aggregated (w : Window) (x : Except String β) (c : Cells) :
    aggregated w x c =
      match x with
      | .ok y => .ok (y, c)
      | .error reason => .error (.aggregation w reason) := by
  cases x <;> rfl

def sessions (key : Bytes) : Ledger (List Window) := fun c => (c.sessions key).map (·, c)

def setSessions (key : Bytes) (ws : List Window) : Ledger Unit := modify (·.setSessions key ws)

def discard (s : Slot) : Ledger Unit := modify (·.dropEntry s)

def discardSession (s : Slot) : Ledger Unit := do
  let ws ← sessions s.key
  if s.window ∈ ws then setSessions s.key (ws.erase s.window)

variable [Encoding α]

def find (s : Slot) : Ledger (Option (Entry α)) := do return (← get).entryAt α s

def hold (s : Slot) (e : Entry α) : Ledger Unit := modify (·.setEntry s e)

theorem run_find (s : Slot) (c : Cells) : find s c = .ok (c.entryAt α s, c) := rfl

theorem run_hold (s : Slot) (e : Entry α) (c : Cells) : hold s e c = .ok ((), c.setEntry s e) := rfl

def add (g : Aggregate ν α ω) (s : Slot) (fireAt : Timestamp) (v : ν) : Ledger Bool := do
  let found ← find s
  let acc ← aggregated s.window (g.add ((found.map Entry.acc).getD g.create) v)
  hold s (⟨acc, fireAt⟩ : Entry α)
  return found.isNone

def finish (g : Aggregate ν α ω) (s : Slot) : Ledger (Option ω) := do
  match ← find (α := α) s with
  | none => return none
  | some e => some <$> aggregated s.window (g.result e.acc)

def take (s : Slot) : Ledger (Option (Entry α)) := do
  let found ← find s
  discard s
  return found

omit [Encoding α] in
def append (g : Aggregate ν α ω) (target : Window) :
    Option α → Option (Entry α) → Ledger (Option α)
  | acc, none => return acc
  | none, some e => return some e.acc
  | some acc, some e => some <$> aggregated target (g.merge acc e.acc)

def gather (g : Aggregate ν α ω) (key : Bytes) (target : Window) (acc : Option α)
    (ws : List Window) : Ledger (Option α) :=
  ws.foldlM (fun acc w => do append g target acc (← take ⟨key, w⟩)) acc

def mergeSession (g : Aggregate ν α ω) (firesAt : Window → Timestamp) (key : Bytes)
    (candidate : Window) : Ledger SessionMerge := do
  let live ← sessions key
  let m := Window.absorb live candidate
  if m.isIdle then return ⟨m.merged, []⟩
  let acc ← gather g key m.merged none m.absorbed
  acc.forM fun acc => hold ⟨key, m.merged⟩ (⟨acc, firesAt m.merged⟩ : Entry α)
  setSessions key (Window.sort (live.filter (· ∉ m.absorbed) ++ [m.merged]))
  return ⟨m.merged, m.absorbed.filter (· ≠ m.merged)⟩

end Ledger

namespace Table

variable {ν α ω β γ : Type} [Encoding α]

/-- `c` does to a table what `f` does to its contents. All failures are fatal. -/
def Refines (c : Command (Table α) β) (f : Ledger β) : Prop :=
  ∀ t : Table α, t.Readable →
    match f t.contents with
    | .ok (x, cells) => ∃ t', c t = .ok x t' ∧ t'.Readable ∧ t'.contents = cells
    | .error e => e.isFatal ∧ ∃ t', c t = .error e t'

/-! ### Sequences -/

theorem refines_pure (x : β) : Refines (α := α) (pure x) (pure x) :=
  fun t ht => ⟨t, rfl, ht, rfl⟩

theorem Refines.bind {c : Command (Table α) β} {f : Ledger β} {k : β → Command (Table α) γ}
    {l : β → Ledger γ} (hc : Refines c f) (hk : ∀ x, Refines (k x) (l x)) :
    Refines (c >>= k) (f >>= l) := by
  intro t ht
  have h := hc t ht
  cases hf : f t.contents with
  | error e =>
    rw [hf] at h
    obtain ⟨hfatal, t', hc'⟩ := h
    rw [Ledger.run_bind, hf]
    exact ⟨hfatal, t', by rw [Command.run_bind, hc']⟩
  | ok p =>
    obtain ⟨x, cells⟩ := p
    rw [hf] at h
    obtain ⟨t', hc', ht', hcells⟩ := h
    have hx := hk x t' ht'
    rw [hcells] at hx
    rw [Ledger.run_bind, hf, Command.run_bind, hc']
    exact hx

theorem Refines.map {c : Command (Table α) β} {f : Ledger β} (h : Refines c f) (k : β → γ) :
    Refines (k <$> c) (k <$> f) := by
  rw [map_eq_pure_bind, map_eq_pure_bind]
  exact h.bind fun x => refines_pure (k x)

theorem refines_ite (p : Prop) [Decidable p] {c d : Command (Table α) β} {f g : Ledger β}
    (hc : Refines c f) (hd : Refines d g) : Refines (if p then c else d) (if p then f else g) := by
  split
  · exact hc
  · exact hd

theorem refines_foldlM {δ : Type} {step : γ → δ → Command (Table α) γ} {step' : γ → δ → Ledger γ}
    (h : ∀ x y, Refines (step x y) (step' x y)) :
    ∀ (l : List δ) (x : γ), Refines (l.foldlM step x) (l.foldlM step' x)
  | [], x => refines_pure x
  | y :: l, x => by
    rw [List.foldlM_cons, List.foldlM_cons]
    exact (h x y).bind fun z => refines_foldlM h l z

omit [Encoding α] in
theorem run_aggregated (w : Window) (x : Except String β) (t : Table α) :
    aggregated w x t =
      match x with
      | .ok y => .ok y t
      | .error reason => .error (.aggregation w reason) t := by
  cases x <;> rfl

theorem refines_aggregated (w : Window) (x : Except String β) :
    Refines (α := α) (aggregated w x) (Ledger.aggregated w x) := by
  intro t ht
  cases x with
  | ok x => exact ⟨t, rfl, ht, rfl⟩
  | error reason => exact ⟨rfl, t, rfl⟩

/-! ### Access to the store -/

omit [Encoding α] in
theorem run_onStore (c : Command StateStore β) (t : Table α) :
    onStore c t =
      match c t.store with
      | .ok x store => .ok x { t with store }
      | .error e store => .error (.store e.message) { t with store } := by
  simp only [onStore, Command.focus, Command.mapError]
  cases c t.store <;> rfl

/-- The table with these cells in its store. -/
def storing (t : Table α) (cells : Cells) (current : Option Bytes) : Table α :=
  { t with store := { t.store with cells, current } }

theorem read_entry {bs : Bytes} {e : Entry α} (h : decode (Entry α) bs = .ok e) :
    StateStore.read (Entry α) (entryCell α).state bs = .ok e :=
  Encoding.decodeAs_of_ok h _

theorem EntriesReadable.readableAt {c : Cells} (h : EntriesReadable α c) (s : Slot) :
    ReadableAt α c s :=
  fun bs => h s.cell bs rfl

/-- The stored entry of a slot, whether or not a buffered one hides it. -/
theorem load_eq {t : Table α} (ht : t.store.faults = .none) {s : Slot}
    (hs : ReadableAt α t.store.cells s) :
    load s t = .ok (t.store.cells.entryAt α s) (t.storing t.store.cells s.key) := by
  have hid : (⟨(entryCell α).state, s.key, encode s.window⟩ : CellId) = s.cell := rfl
  unfold load
  rw [run_onStore, StateStore.select_get _ ht, hid]
  cases h : t.store.cells[s.cell]? with
  | none => simp [Cells.entryAt, h, storing, StateStore.facing]
  | some bs =>
    obtain ⟨e, he⟩ := hs bs h
    simp [Cells.entryAt, h, read_entry he, he, Except.toOption, storing, StateStore.facing]

/-! ### What stays readable -/

theorem EntriesReadable.dropEntry {c : Cells} (h : EntriesReadable α c) (s : Slot) :
    EntriesReadable α (c.dropEntry s) := by
  intro id bs hid hbs
  rw [Cells.getElem?_dropEntry] at hbs
  split at hbs
  · cases hbs
  · exact h id bs hid hbs

theorem EntriesReadable.setSessions {c : Cells} (h : EntriesReadable α c) (key : Bytes)
    (ws : List Window) : EntriesReadable α (c.setSessions key ws) := by
  intro id bs hid hbs
  rw [Cells.getElem?_setSessions] at hbs
  split at hbs
  · next he =>
    rw [← he] at hid
    simp [sessionsAt, entryCell] at hid
  · exact h id bs hid hbs

variable [LawfulEncoding α]

theorem EntriesReadable.setEntry {c : Cells} (h : EntriesReadable α c) (s : Slot) (e : Entry α) :
    EntriesReadable α (c.setEntry s e) := by
  intro id bs hid hbs
  rw [Cells.getElem?_setEntry] at hbs
  split at hbs
  · obtain rfl := Option.some.inj hbs
    exact ⟨e, (faithful e).decode_encode⟩
  · exact h id bs hid hbs

theorem EntriesReadable.writeAll :
    ∀ (l : List (Slot × Entry α)) {c : Cells}, EntriesReadable α c →
      EntriesReadable α (writeAll l c)
  | [], _, h => h
  | p :: l, _, h => EntriesReadable.writeAll l (h.setEntry p.1 p.2)

theorem Readable.contents {t : Table α} (ht : t.Readable) : EntriesReadable α t.contents :=
  EntriesReadable.writeAll _ ht.entries

/-! ### Commands on slots -/

theorem entryAt_contents (t : Table α) (s : Slot) :
    t.contents.entryAt α s = t.buffer[s]?.or (t.store.cells.entryAt α s) := by
  simp only [Cells.entryAt, contents, getElem?_overlay_cell]
  cases t.buffer[s]? with
  | none => simp
  | some e => simp [(faithful e).decode_encode, Except.toOption]

theorem refines_find (s : Slot) : Refines (find (α := α) s) (Ledger.find s) := by
  intro t ht
  show ∃ t', find s t = .ok (t.contents.entryAt α s) t' ∧ _
  rw [entryAt_contents]
  simp only [find, Command.run_bind, Command.run_get]
  cases h : t.buffer[s]? with
  | none =>
    exact ⟨_, load_eq ht.faults (ht.entries.readableAt s), ⟨ht.faults, ht.entries⟩, rfl⟩
  | some e => exact ⟨t, rfl, ht, rfl⟩

omit [LawfulEncoding α] in
theorem refines_hold (s : Slot) (e : Entry α) : Refines (hold s e) (Ledger.hold s e) := by
  intro t ht
  refine ⟨{ t with buffer := t.buffer.insert s e }, rfl, ⟨ht.faults, ht.entries⟩, ?_⟩
  exact overlay_insert t.buffer t.store.cells s e

omit [LawfulEncoding α] in
theorem save_eq {t : Table α} (ht : t.store.faults = .none) (s : Slot) (e : Entry α) :
    save s e t = .ok () (t.storing (t.store.cells.setEntry s e) s.key) := by
  unfold save
  rw [run_onStore, StateStore.select_put _ _ ht]
  rfl

omit [LawfulEncoding α] in
theorem forM_save_eq : ∀ (l : List (Slot × Entry α)) {t : Table α}, t.store.faults = .none →
    ∃ current, (l.forM fun p => save p.1 p.2) t =
      .ok () (t.storing (writeAll l t.store.cells) current)
  | [], t, _ => ⟨t.store.current, rfl⟩
  | p :: l, t, ht => by
    obtain ⟨current, h⟩ :=
      forM_save_eq l (t := t.storing (t.store.cells.setEntry p.1 p.2) p.1.key) ht
    have hp : ((p :: l).forM fun p => save p.1 p.2) t =
        (save p.1 p.2 >>= fun _ => l.forM fun p => save p.1 p.2) t := rfl
    exact ⟨current, by rw [hp, Command.run_bind, save_eq ht]; exact h⟩

omit [Encoding α] [LawfulEncoding α] in
theorem exists_drain (t : Table α) : ∃ (l : List (Slot × Entry α)) (drains : List (DrainOrder α)),
    drain t = .ok l { t with buffer := ∅, drains } ∧ l.Perm t.buffer.toList := by
  obtain ⟨store, buffer, capacity, drains⟩ := t
  cases drains with
  | nil => exact ⟨_, [], rfl, .refl _⟩
  | cons d drains => exact ⟨_, drains, rfl, d.perm _⟩

omit [LawfulEncoding α] in
/-- Flushing moves the contents into the store, in whichever order it writes. -/
theorem flush_eq {t : Table α} (ht : t.store.faults = .none) :
    ∃ (current : Option Bytes) (drains : List (DrainOrder α)),
      flush t = .ok () ({ t with buffer := ∅, drains }.storing t.contents current) := by
  obtain ⟨l, drains, hdrain, hperm⟩ := exists_drain t
  obtain ⟨current, h⟩ := forM_save_eq l (t := { t with buffer := ∅, drains }) ht
  refine ⟨current, drains, ?_⟩
  unfold flush
  rw [Command.run_bind, hdrain]
  dsimp only
  rw [h, writeAll_of_perm hperm]
  rfl

theorem refines_flush : Refines (flush (α := α)) (pure ()) := by
  intro t ht
  obtain ⟨current, drains, h⟩ := flush_eq ht.faults
  exact ⟨_, h, ⟨ht.faults, ht.contents⟩, rfl⟩

theorem refines_spill : Refines (spill (α := α)) (pure ()) := by
  intro t ht
  show ∃ t', spill t = .ok () t' ∧ t'.Readable ∧ t'.contents = t.contents
  simp only [spill, Command.run_bind, Command.run_get]
  split
  · exact refines_flush t ht
  · exact ⟨t, rfl, ht, rfl⟩

omit [Encoding α] [LawfulEncoding α] in
theorem erase_eq {t : Table α} (ht : t.store.faults = .none) (s : Slot) :
    erase s t = .ok () (t.storing (t.store.cells.dropEntry s) s.key) := by
  unfold erase
  rw [run_onStore, StateStore.select_clear _ ht]
  rfl

omit [LawfulEncoding α] in
theorem refines_discard (s : Slot) : Refines (discard (α := α) s) (Ledger.discard s) := by
  intro t ht
  refine ⟨{ t with buffer := t.buffer.erase s }.storing (t.store.cells.dropEntry s) s.key, ?_,
    ⟨ht.faults, ht.entries.dropEntry s⟩, ?_⟩
  · exact erase_eq (t := { t with buffer := t.buffer.erase s }) ht.faults s
  · exact overlay_erase t.buffer t.store.cells s

/-- Taking an entry empties both places where it may be kept. -/
theorem take_eq {t : Table α} (ht : t.store.faults = .none) {s : Slot}
    (hs : ReadableAt α t.store.cells s) :
    take s t = .ok (t.contents.entryAt α s)
      ({ t with buffer := t.buffer.erase s }.storing (t.store.cells.dropEntry s) s.key) := by
  have hload := load_eq (t := { t with buffer := t.buffer.erase s }) ht hs
  have herase := erase_eq
    (t := { t with buffer := t.buffer.erase s }.storing t.store.cells s.key) ht s
  simp only [take, unbuffer, Command.run_bind, hload]
  rw [herase, entryAt_contents]
  rfl

theorem refines_take (s : Slot) : Refines (take (α := α) s) (Ledger.take s) := by
  intro t ht
  exact ⟨_, take_eq ht.faults (ht.entries.readableAt s), ⟨ht.faults, ht.entries.dropEntry s⟩,
    overlay_erase t.buffer t.store.cells s⟩

omit [LawfulEncoding α] in
theorem overlay_insert_erase (b : Std.ExtTreeMap Slot (Entry α)) (c : Cells) (s : Slot)
    (e : Entry α) : overlay ((b.erase s).insert s e) c = (overlay b c).setEntry s e := by
  have h : (b.erase s).insert s e = b.insert s e := by
    refine Std.ExtTreeMap.ext_getElem? fun r => ?_
    simp only [Std.ExtTreeMap.getElem?_insert, Std.ExtTreeMap.getElem?_erase]
    split <;> rfl
  rw [h, overlay_insert]

theorem refines_add (g : Aggregate ν α ω) (s : Slot) (fireAt : Timestamp) (v : ν) :
    Refines (add g s fireAt v) (Ledger.add g s fireAt v) := by
  refine (refines_find s).bind fun found => ?_
  intro t ht
  cases hacc : g.add ((found.map Entry.acc).getD g.create) v with
  | error reason =>
    exact ⟨rfl, { t with buffer := t.buffer.erase s }, rfl⟩
  | ok acc =>
    -- the entry leaves the buffer and comes back, so the two steps are taken together
    obtain ⟨t', hspill, hread, hcells⟩ := refines_spill
      { t with buffer := (t.buffer.erase s).insert s ⟨acc, fireAt⟩ } ⟨ht.faults, ht.entries⟩
    refine ⟨t', ?_, hread, ?_⟩
    · simp only [unbuffer, hold, Command.run_bind, Command.run_modify, run_aggregated]
      rw [hspill]
      rfl
    · rw [hcells]
      exact overlay_insert_erase t.buffer t.store.cells s ⟨acc, fireAt⟩

theorem refines_finish (g : Aggregate ν α ω) (s : Slot) :
    Refines (finish g s) (Ledger.finish g s) := by
  refine (refines_find s).bind fun found => ?_
  cases found with
  | none => exact refines_pure none
  | some e => exact (refines_aggregated s.window (g.result e.acc)).map some

/-! ### Sessions -/

omit [LawfulEncoding α] in
theorem refines_sessions (key : Bytes) :
    Refines (sessions (α := α) key) (Ledger.sessions key) := by
  intro t ht
  have hid : (⟨sessionCell.state, key, []⟩ : CellId) = sessionsAt key := rfl
  have hcell : t.contents[sessionsAt key]? = t.store.cells[sessionsAt key]? :=
    getElem?_overlay_sessionsAt t.buffer t.store.cells key
  simp only [Ledger.sessions, Cells.sessions, sessions, Command.run_bind, hcell]
  rw [run_onStore, StateStore.select_get _ ht.faults, hid]
  cases t.store.cells[sessionsAt key]? with
  | none => exact ⟨_, rfl, ⟨ht.faults, ht.entries⟩, rfl⟩
  | some bs =>
    dsimp only
    cases StateStore.read (List Window) sessionCell.state bs with
    | ok ws => exact ⟨_, rfl, ⟨ht.faults, ht.entries⟩, rfl⟩
    | error e => exact ⟨rfl, _, rfl⟩

omit [Encoding α] [LawfulEncoding α] in
theorem setSessions_eq {t : Table α} (ht : t.store.faults = .none) (key : Bytes)
    (ws : List Window) :
    setSessions key ws t = .ok () (t.storing (t.store.cells.setSessions key ws) key) := by
  unfold setSessions Cells.setSessions
  rw [run_onStore]
  by_cases h : ws = []
  · simp only [if_pos h]
    rw [StateStore.select_clear _ ht]
    rfl
  · simp only [if_neg h]
    rw [StateStore.select_put _ _ ht]
    rfl

omit [LawfulEncoding α] in
theorem refines_setSessions (key : Bytes) (ws : List Window) :
    Refines (setSessions (α := α) key ws) (Ledger.setSessions key ws) := by
  intro t ht
  exact ⟨_, setSessions_eq ht.faults key ws, ⟨ht.faults, ht.entries.setSessions key ws⟩,
    overlay_setSessions t.buffer t.store.cells key ws⟩

omit [LawfulEncoding α] in
theorem refines_discardSession (s : Slot) :
    Refines (discardSession (α := α) s) (Ledger.discardSession s) :=
  (refines_sessions s.key).bind fun ws =>
    refines_ite _ (refines_setSessions s.key (ws.erase s.window)) (refines_pure ())

omit [LawfulEncoding α] in
theorem refines_append (g : Aggregate ν α ω) (target : Window) (acc : Option α)
    (found : Option (Entry α)) :
    Refines (append g target acc found) (Ledger.append g target acc found) := by
  cases found with
  | none => exact refines_pure acc
  | some e =>
    cases acc with
    | none => exact refines_pure (some e.acc)
    | some acc => exact (refines_aggregated target (g.merge acc e.acc)).map some

theorem refines_gather (g : Aggregate ν α ω) (key : Bytes) (target : Window) (acc : Option α)
    (ws : List Window) : Refines (gather g key target acc ws) (Ledger.gather g key target acc ws) :=
  refines_foldlM (fun acc w => (refines_take ⟨key, w⟩).bind (refines_append g target acc)) ws acc

theorem refines_mergeSession (g : Aggregate ν α ω) (firesAt : Window → Timestamp) (key : Bytes)
    (candidate : Window) :
    Refines (mergeSession g firesAt key candidate)
      (Ledger.mergeSession g firesAt key candidate) := by
  refine (refines_sessions key).bind fun live => ?_
  apply refines_ite _ (refines_pure _)
  refine (refines_gather g key _ none _).bind fun acc => ?_
  have hhold : Refines (acc.forM fun acc => hold ⟨key, (Window.absorb live candidate).merged⟩
      ⟨acc, firesAt (Window.absorb live candidate).merged⟩)
      (acc.forM fun acc => Ledger.hold ⟨key, (Window.absorb live candidate).merged⟩
        (⟨acc, firesAt (Window.absorb live candidate).merged⟩ : Entry α)) := by
    cases acc with
    | none => exact refines_pure ()
    | some acc => exact refines_hold _ _
  refine hhold.bind fun _ => (refines_setSessions key _).bind fun _ => ?_
  exact refines_spill.bind fun _ => refines_pure _

end Table

end Tidemark
