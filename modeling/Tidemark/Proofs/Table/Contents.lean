import Tidemark.Proofs.StateStore
import Tidemark.Table.Sessions

/-! The contents of a table: the buffer laid over the cells of the store. A slot's entry is what its
cell in the contents encodes, and a key's sessions are what its session cell does. Entries and
sessions keep to their own cells, so that a change of one is no change of another. -/

namespace Tidemark

/-! ### Cells of entries and sessions -/

/-- The cell of a slot's entry. -/
def Slot.cell (s : Slot) : CellId := ⟨"window-entries", s.key, encode s.window⟩

/-- The cell of a key's live sessions. -/
def sessionsAt (key : Bytes) : CellId := ⟨"session-windows", key, []⟩

theorem Slot.cell_inj {s r : Slot} : s.cell = r.cell ↔ s = r := by
  obtain ⟨key, window⟩ := s
  obtain ⟨key', window'⟩ := r
  simp only [Slot.cell, CellId.mk.injEq, Slot.mk.injEq, true_and, Encoding.encode_inj]

theorem sessionsAt_inj {key key' : Bytes} : sessionsAt key = sessionsAt key' ↔ key = key' := by
  simp [sessionsAt]

theorem Slot.cell_ne_sessionsAt (s : Slot) (key : Bytes) : s.cell ≠ sessionsAt key := by
  simp [Slot.cell, sessionsAt]

namespace Cells

variable {α : Type} [Encoding α]

/-- The entry of a slot. -/
def entryAt (α : Type) [Encoding α] (cs : Cells) (s : Slot) : Option (Entry α) :=
  cs[s.cell]?.bind fun bs => (decode (Entry α) bs).toOption

def setEntry (cs : Cells) (s : Slot) (e : Entry α) : Cells := cs.insert s.cell (encode e)

def dropEntry (cs : Cells) (s : Slot) : Cells := cs.erase s.cell

/-- The live sessions of a key; a value that encodes none is a failure of the store. -/
def sessions (cs : Cells) (key : Bytes) : Except Error (List Window) :=
  match cs[sessionsAt key]? with
  | none => .ok []
  | some bs =>
    (StateStore.read (List Window) sessionCell.state bs).mapError fun e => .store e.message

/-- An empty list of sessions is not kept. -/
def setSessions (cs : Cells) (key : Bytes) (ws : List Window) : Cells :=
  if ws = [] then cs.erase (sessionsAt key) else cs.insert (sessionsAt key) (encode ws)

theorem getElem?_setEntry (cs : Cells) (s : Slot) (e : Entry α) (id : CellId) :
    (cs.setEntry s e)[id]? = if s.cell = id then some (encode e) else cs[id]? := by
  simp only [setEntry, Std.ExtTreeMap.getElem?_insert, Std.compare_eq_iff_eq]

theorem getElem?_dropEntry (cs : Cells) (s : Slot) (id : CellId) :
    (cs.dropEntry s)[id]? = if s.cell = id then none else cs[id]? := by
  simp only [dropEntry, Std.ExtTreeMap.getElem?_erase, Std.compare_eq_iff_eq]

theorem getElem?_setSessions (cs : Cells) (key : Bytes) (ws : List Window) (id : CellId) :
    (cs.setSessions key ws)[id]? =
      if sessionsAt key = id then (if ws = [] then none else some (encode ws)) else cs[id]? := by
  unfold setSessions
  split <;>
    simp only [Std.ExtTreeMap.getElem?_insert, Std.ExtTreeMap.getElem?_erase, Std.compare_eq_iff_eq]

@[simp] theorem entryAt_empty (s : Slot) : entryAt α ∅ s = none := by
  simp [entryAt]

@[simp] theorem entryAt_setEntry [LawfulEncoding α] (cs : Cells) (s r : Slot) (e : Entry α) :
    (cs.setEntry s e).entryAt α r = if s = r then some e else cs.entryAt α r := by
  simp only [entryAt, getElem?_setEntry, Slot.cell_inj]
  split
  · simp [(faithful e).decode_encode, Except.toOption]
  · rfl

@[simp] theorem entryAt_dropEntry (cs : Cells) (s r : Slot) :
    (cs.dropEntry s).entryAt α r = if s = r then none else cs.entryAt α r := by
  simp only [entryAt, getElem?_dropEntry, Slot.cell_inj]
  split <;> rfl

@[simp] theorem entryAt_setSessions (cs : Cells) (key : Bytes) (ws : List Window) (s : Slot) :
    (cs.setSessions key ws).entryAt α s = cs.entryAt α s := by
  simp only [entryAt, getElem?_setSessions, if_neg (s.cell_ne_sessionsAt key).symm]

@[simp] theorem sessions_setEntry (cs : Cells) (s : Slot) (e : Entry α) (key : Bytes) :
    (cs.setEntry s e).sessions key = cs.sessions key := by
  simp only [sessions, getElem?_setEntry, if_neg (s.cell_ne_sessionsAt key)]

@[simp] theorem sessions_dropEntry (cs : Cells) (s : Slot) (key : Bytes) :
    (cs.dropEntry s).sessions key = cs.sessions key := by
  simp only [sessions, getElem?_dropEntry, if_neg (s.cell_ne_sessionsAt key)]

theorem sessions_setSessions (cs : Cells) {key : Bytes} {ws : List Window}
    (h : ws.length < 2 ^ 64) (key' : Bytes) :
    (cs.setSessions key ws).sessions key' = if key = key' then .ok ws else cs.sessions key' := by
  have hws : Encoding.Faithful ws := Encoding.faithful_list h fun w _ => faithful w
  simp only [sessions, getElem?_setSessions, sessionsAt_inj]
  by_cases hk : key = key'
  · by_cases he : ws = []
    · simp [hk, he]
    · simp only [if_pos hk, if_neg he, StateStore.read, Encoding.decodeAs_encode hws]
      rfl
  · simp only [if_neg hk]

end Cells

/-! ### The buffer laid over the store -/

namespace Table

variable {α : Type} [Encoding α]

/-- The cells after every entry of the list is written. -/
def writeAll (l : List (Slot × Entry α)) (cs : Cells) : Cells :=
  l.foldl (fun cs p => cs.setEntry p.1 p.2) cs

theorem getElem?_writeAll_of_ne {id : CellId} :
    ∀ (l : List (Slot × Entry α)) (cs : Cells), (∀ p ∈ l, p.1.cell ≠ id) →
      (writeAll l cs)[id]? = cs[id]?
  | [], _, _ => rfl
  | p :: l, cs, h => by
    have hp := h p (by simp)
    have hl := getElem?_writeAll_of_ne l (cs.setEntry p.1 p.2) fun q hq => h q (by simp [hq])
    rw [Cells.getElem?_setEntry, if_neg hp] at hl
    exact hl

theorem getElem?_writeAll_of_mem {s : Slot} {e : Entry α} :
    ∀ (l : List (Slot × Entry α)) (cs : Cells), l.Pairwise (fun p q => p.1 ≠ q.1) → (s, e) ∈ l →
      (writeAll l cs)[s.cell]? = some (encode e)
  | p :: l, cs, hd, h => by
    obtain ⟨hp, hd⟩ := List.pairwise_cons.1 hd
    rcases List.mem_cons.1 h with rfl | h
    · have hl : (writeAll l (cs.setEntry s e))[s.cell]? = (cs.setEntry s e)[s.cell]? :=
        getElem?_writeAll_of_ne l _ fun q hq => by
          rw [ne_eq, Slot.cell_inj]
          exact (hp q hq).symm
      rw [Cells.getElem?_setEntry, if_pos rfl] at hl
      exact hl
    · exact getElem?_writeAll_of_mem l (cs.setEntry p.1 p.2) hd h

/-- Cells with buffered entries written over them. -/
def overlay (b : Std.ExtTreeMap Slot (Entry α)) (cs : Cells) : Cells := writeAll b.toList cs

omit [Encoding α] in
theorem distinct_slots (b : Std.ExtTreeMap Slot (Entry α)) :
    b.toList.Pairwise fun p q => p.1 ≠ q.1 :=
  Std.ExtTreeMap.distinct_keys_toList.imp fun h he => h (Std.compare_eq_iff_eq.2 he)

theorem getElem?_overlay_cell (b : Std.ExtTreeMap Slot (Entry α)) (cs : Cells) (s : Slot) :
    (overlay b cs)[s.cell]? = (b[s]?.map encode).or cs[s.cell]? := by
  cases h : b[s]? with
  | some e =>
    exact getElem?_writeAll_of_mem _ _ (distinct_slots b)
      (Std.ExtTreeMap.mem_toList_iff_getElem?_eq_some.2 h)
  | none =>
    refine getElem?_writeAll_of_ne _ _ fun p hp he => ?_
    rw [Slot.cell_inj] at he
    rw [← he, Std.ExtTreeMap.mem_toList_iff_getElem?_eq_some.1 hp] at h
    cases h

theorem getElem?_overlay_of_ne (b : Std.ExtTreeMap Slot (Entry α)) (cs : Cells) {id : CellId}
    (h : ∀ s : Slot, s.cell ≠ id) : (overlay b cs)[id]? = cs[id]? :=
  getElem?_writeAll_of_ne _ _ fun p _ => h p.1

/-- Cells are equal when they agree on every slot's cell and on every other cell. -/
theorem cells_ext {cs d : Cells} (hs : ∀ s : Slot, cs[s.cell]? = d[s.cell]?)
    (hn : ∀ id : CellId, (∀ s : Slot, s.cell ≠ id) → cs[id]? = d[id]?) : cs = d := by
  refine Std.ExtTreeMap.ext_getElem? fun id => ?_
  by_cases h : ∃ s : Slot, s.cell = id
  · obtain ⟨s, rfl⟩ := h
    exact hs s
  · exact hn id fun s he => h ⟨s, he⟩

/-- The order in which buffered entries are written makes no difference. -/
theorem writeAll_of_perm {b : Std.ExtTreeMap Slot (Entry α)} {l : List (Slot × Entry α)}
    (h : l.Perm b.toList) (cs : Cells) : writeAll l cs = overlay b cs := by
  have hdistinct : l.Pairwise fun p q => p.1 ≠ q.1 :=
    (distinct_slots b).perm h.symm fun hpq => hpq.symm
  refine cells_ext (fun s => ?_) fun id hid => ?_
  · rw [getElem?_overlay_cell]
    cases hs : b[s]? with
    | some e =>
      have hmem := h.mem_iff.2 (Std.ExtTreeMap.mem_toList_iff_getElem?_eq_some.2 hs)
      exact getElem?_writeAll_of_mem l cs hdistinct hmem
    | none =>
      refine getElem?_writeAll_of_ne l cs fun p hp he => ?_
      rw [Slot.cell_inj] at he
      rw [← he, Std.ExtTreeMap.mem_toList_iff_getElem?_eq_some.1 (h.mem_iff.1 hp)] at hs
      cases hs
  · rw [getElem?_overlay_of_ne b cs hid]
    exact getElem?_writeAll_of_ne l cs fun p _ => hid p.1

@[simp] theorem overlay_empty (cs : Cells) :
    overlay (∅ : Std.ExtTreeMap Slot (Entry α)) cs = cs := rfl

theorem overlay_insert (b : Std.ExtTreeMap Slot (Entry α)) (cs : Cells) (s : Slot) (e : Entry α) :
    overlay (b.insert s e) cs = (overlay b cs).setEntry s e := by
  refine cells_ext (fun r => ?_) fun id h => ?_
  · simp only [getElem?_overlay_cell, Cells.getElem?_setEntry, Slot.cell_inj,
      Std.ExtTreeMap.getElem?_insert, Std.compare_eq_iff_eq]
    split <;> simp
  · rw [Cells.getElem?_setEntry, if_neg (h s), getElem?_overlay_of_ne _ _ h,
      getElem?_overlay_of_ne _ _ h]

theorem overlay_erase (b : Std.ExtTreeMap Slot (Entry α)) (cs : Cells) (s : Slot) :
    overlay (b.erase s) (cs.erase s.cell) = (overlay b cs).dropEntry s := by
  refine cells_ext (fun r => ?_) fun id h => ?_
  · simp only [getElem?_overlay_cell, Cells.getElem?_dropEntry, Slot.cell_inj,
      Std.ExtTreeMap.getElem?_erase, Std.compare_eq_iff_eq]
    split <;> simp
  · rw [Cells.getElem?_dropEntry, if_neg (h s), getElem?_overlay_of_ne _ _ h,
      getElem?_overlay_of_ne _ _ h]
    simp [Std.ExtTreeMap.getElem?_erase, h s]

theorem overlay_setSessions (b : Std.ExtTreeMap Slot (Entry α)) (cs : Cells) (key : Bytes)
    (ws : List Window) :
    overlay b (cs.setSessions key ws) = (overlay b cs).setSessions key ws := by
  refine cells_ext (fun r => ?_) fun id h => ?_
  · simp only [getElem?_overlay_cell, Cells.getElem?_setSessions,
      if_neg (r.cell_ne_sessionsAt key).symm]
  · simp only [Cells.getElem?_setSessions, getElem?_overlay_of_ne _ _ h]

theorem getElem?_overlay_sessionsAt (b : Std.ExtTreeMap Slot (Entry α)) (cs : Cells) (key : Bytes) :
    (overlay b cs)[sessionsAt key]? = cs[sessionsAt key]? :=
  getElem?_overlay_of_ne b cs fun s => s.cell_ne_sessionsAt key

/-- What the table holds, wherever it is kept. -/
def contents (t : Table α) : Cells := overlay t.buffer t.store.cells

theorem sessions_contents (t : Table α) (key : Bytes) :
    t.contents.sessions key = t.store.cells.sessions key := by
  rw [Cells.sessions, Cells.sessions, contents, getElem?_overlay_sessionsAt]

/-- A slot's entry; the buffered one hides the stored one. -/
def live? (t : Table α) (s : Slot) : Option (Entry α) :=
  t.buffer[s]?.or (t.store.cells.entryAt α s)

/-- The stored entry of a slot, if there is one, can be read. -/
def ReadableAt (α : Type) [Encoding α] (cs : Cells) (s : Slot) : Prop :=
  ∀ bs, cs[s.cell]? = some bs → ∃ e, decode (Entry α) bs = .ok e

/-- Every cell of an entry encodes one. -/
def EntriesReadable (α : Type) [Encoding α] (cs : Cells) : Prop :=
  ∀ (id : CellId) (bs : Bytes), id.state = (entryCell α).state → cs[id]? = some bs →
    ∃ e, decode (Entry α) bs = .ok e

/-- The store refuses nothing, and its entries can be read. -/
structure Readable (t : Table α) : Prop where
  faults : t.store.faults = .none
  entries : EntriesReadable α t.store.cells

end Table

end Tidemark
