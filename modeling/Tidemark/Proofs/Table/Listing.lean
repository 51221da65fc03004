import Tidemark.Proofs.Table.Soundness

/-! The table as a whole, by its contents: snapshots, starting over, and the list of all entries.
Sound contents are listed entry by entry. -/

namespace Tidemark

/-- When every step of a traversal answers, it answers with the answers. -/
theorem exists_mapM {β γ : Type} {f : β → Except Error γ} :
    ∀ {l : List β}, (∀ x ∈ l, ∃ y, f x = .ok y) →
      ∃ ys, l.mapM f = .ok ys ∧ ∀ y, y ∈ ys ↔ ∃ x ∈ l, f x = .ok y
  | [], _ => ⟨[], rfl, by simp⟩
  | x :: l, h => by
    obtain ⟨y, hy⟩ := h x (by simp)
    obtain ⟨ys, hys, hmem⟩ := exists_mapM (l := l) fun z hz => h z (by simp [hz])
    have hcons : (x :: l).mapM f = .ok (y :: ys) := by
      rw [List.mapM_cons, hy, hys]
      rfl
    refine ⟨y :: ys, hcons, ?_⟩
    intro z
    rw [List.mem_cons, hmem]
    constructor
    · rintro (rfl | ⟨x', hx', hz⟩)
      · exact ⟨x, by simp, hy⟩
      · exact ⟨x', by simp [hx'], hz⟩
    · rintro ⟨x', hx', hz⟩
      rcases List.mem_cons.1 hx' with rfl | hx'
      · exact .inl (Except.ok.inj (hz.symm.trans hy))
      · exact .inr ⟨x', hx', hz⟩

theorem ok_of_mapM {β γ : Type} {f : β → Except Error γ} :
    ∀ {l : List β} {ys : List γ}, l.mapM f = .ok ys → ∀ x ∈ l, ∃ y, f x = .ok y
  | x :: l, ys, h, z, hz => by
    rw [List.mapM_cons] at h
    cases hx : f x with
    | error e =>
      rw [hx] at h
      cases h
    | ok y =>
      rcases List.mem_cons.1 hz with rfl | hz
      · exact ⟨y, hx⟩
      · cases hl : l.mapM f with
        | error e =>
          rw [hx, hl] at h
          cases h
        | ok ys' => exact ok_of_mapM hl z hz

/-- A traversal fails as one of its steps does. -/
theorem error_of_mapM {β γ : Type} {f : β → Except Error γ} {e : Error} :
    ∀ {l : List β}, l.mapM f = .error e → ∃ x ∈ l, f x = .error e
  | [], h => by cases h
  | x :: l, h => by
    rw [List.mapM_cons] at h
    cases hx : f x with
    | error e' =>
      rw [hx] at h
      obtain rfl := Except.error.inj h
      exact ⟨x, by simp, hx⟩
    | ok y =>
      cases hl : l.mapM f with
      | error e' =>
        rw [hx, hl] at h
        obtain rfl := Except.error.inj h
        obtain ⟨z, hz, he⟩ := error_of_mapM hl
        exact ⟨z, by simp [hz], he⟩
      | ok ys =>
        rw [hx, hl] at h
        cases h

namespace Cells

variable {κ α : Type} [Encoding κ] [Encoding α]

/-- Every entry with its slot, in the order of the cells. -/
def listing (α : Type) [Encoding α] (cs : Cells) : Except Error (List (Slot × Entry α)) := do
  let found ← ((entryCell α).listing { cells := cs }).mapError fun e => .store e.message
  found.mapM fun q => (·, q.2) <$> Table.slotOf q.1

theorem slotOf_cell (s : Slot) : Table.slotOf s.cell = .ok s := by
  rw [Table.slotOf, Slot.cell, Encoding.decodeAs_encode (faithful s.window)]
  rfl

theorem entryAt_eq_some {cs : Cells} {s : Slot} {e : Entry α} :
    cs.entryAt α s = some e ↔ ∃ bs, cs[s.cell]? = some bs ∧ decode (Entry α) bs = .ok e := by
  rw [entryAt, Option.bind_eq_some_iff]
  refine exists_congr fun bs => and_congr_right fun _ => ?_
  cases decode (Entry α) bs <;> simp [Except.toOption]

theorem read_eq_ok {bs : Bytes} {e : Entry α} :
    StateStore.read (Entry α) (entryCell α).state bs = .ok e ↔ decode (Entry α) bs = .ok e := by
  rw [StateStore.read, decodeAs]
  cases decode (Entry α) bs with
  | error e => exact ⟨fun h => (by cases h), fun h => (by cases h)⟩
  | ok e' =>
    show Except.ok e' = Except.ok e ↔ Except.ok e' = Except.ok e
    rw [Except.ok.injEq, Except.ok.injEq]

/-- Every entry cell of sound contents can be read. -/
theorem Sound.exists_found [LawfulEncoding α] {p : Policy} {cs : Cells} (h : Sound κ α p cs) :
    ∃ found, (entryCell α).listing { cells := cs } = .ok found ∧
      ∀ r, r ∈ found ↔ ∃ s : Slot, r.1 = s.cell ∧ cs.entryAt α s = some r.2 := by
  have hcell : ∀ q ∈ ({ cells := cs } : StateStore).cellsOf (entryCell α).state,
      ∃ (s : Slot) (e : Entry α), q.1 = s.cell ∧ q.2 = encode e := by
    intro q hq
    obtain ⟨hbs, hstate⟩ := StateStore.mem_cellsOf.1 hq
    rcases h.tidy q.1 q.2 hbs with hentry | ⟨_, key, ws, hid, _⟩
    · exact hentry
    · rw [hid] at hstate
      simp [sessionsAt, entryCell] at hstate
  obtain ⟨found, hfound, hmem⟩ := exists_mapM (f := fun q : CellId × Bytes =>
      (q.1, ·) <$> StateStore.read (Entry α) (entryCell α).state q.2) fun q hq => by
    obtain ⟨s, e, _, he⟩ := hcell q hq
    exact ⟨(q.1, e), by rw [read_eq_ok.2 (he ▸ (faithful e).decode_encode)]; rfl⟩
  refine ⟨found, hfound, fun r => ⟨fun hr => ?_, ?_⟩⟩
  · obtain ⟨q, hq, hqr⟩ := (hmem r).1 hr
    obtain ⟨s, e, hid, he⟩ := hcell q hq
    have hdec : decode (Entry α) q.2 = .ok e := he ▸ (faithful e).decode_encode
    rw [read_eq_ok.2 hdec] at hqr
    obtain rfl := Except.ok.inj hqr
    exact ⟨s, hid, entryAt_eq_some.2 ⟨q.2, hid ▸ (StateStore.mem_cellsOf.1 hq).1, hdec⟩⟩
  · rintro ⟨s, hid, hentry⟩
    obtain ⟨bs, hbs, hdec⟩ := entryAt_eq_some.1 hentry
    refine (hmem r).2 ⟨(s.cell, bs), StateStore.mem_cellsOf.2 ⟨hbs, rfl⟩, ?_⟩
    rw [read_eq_ok.2 hdec, ← hid]
    rfl

/-- Sound contents can be listed, and the list holds just the entries. -/
theorem Sound.exists_listing [LawfulEncoding α] {p : Policy} {cs : Cells} (h : Sound κ α p cs) :
    ∃ l, cs.listing α = .ok l ∧ ∀ s e, (s, e) ∈ l ↔ cs.entryAt α s = some e := by
  obtain ⟨found, hfound, hmem⟩ := h.exists_found
  obtain ⟨l, hl, hmem'⟩ := exists_mapM (f := fun q : CellId × Entry α =>
      (·, q.2) <$> Table.slotOf q.1) (l := found) fun r hr => by
    obtain ⟨s, hid, _⟩ := (hmem r).1 hr
    exact ⟨(s, r.2), by rw [hid, slotOf_cell]; rfl⟩
  refine ⟨l, ?_, fun s e => ⟨fun hse => ?_, fun hse => ?_⟩⟩
  · rw [listing, hfound]
    exact hl
  · obtain ⟨r, hr, hrse⟩ := (hmem' (s, e)).1 hse
    obtain ⟨s', hid, hentry⟩ := (hmem r).1 hr
    rw [hid, slotOf_cell] at hrse
    obtain ⟨rfl, rfl⟩ := Prod.mk.inj (Except.ok.inj hrse)
    exact hentry
  · refine (hmem' (s, e)).2 ⟨(s.cell, e), (hmem _).2 ⟨s, rfl, hse⟩, ?_⟩
    rw [slotOf_cell]
    rfl

/-- A listing that does not fail for good has read every entry. -/
theorem readable_of_listing {cs : Cells} (h : ∀ e, cs.listing α = .error e → ¬ e.isFatal) :
    Table.EntriesReadable α cs := by
  intro id bs hid hbs
  cases hfound : (entryCell α).listing { cells := cs } with
  | error e =>
    refine absurd rfl (h (.store e.message) ?_)
    rw [listing, hfound]
    rfl
  | ok found =>
    obtain ⟨q, hq⟩ := ok_of_mapM hfound (id, bs) (StateStore.mem_cellsOf.2 ⟨hbs, hid⟩)
    cases hread : StateStore.read (Entry α) (entryCell α).state bs with
    | error e =>
      simp only [hread] at hq
      cases hq
    | ok e => exact ⟨e, read_eq_ok.1 hread⟩

end Cells

namespace Table

variable {α : Type}

/-- Starting over needs a snapshot, and drops the buffer either way. -/
theorem restore_eq {t : Table α} (ht : t.store.faults = .none) (bs : Bytes) :
    restore bs t =
      match decode Cells bs with
      | .ok cells => .ok () ({ t with buffer := ∅ }.storing cells t.store.current)
      | .error cause =>
        .error (.store (Error.notASnapshot cause).message) { t with buffer := ∅ } := by
  unfold restore
  rw [Command.run_bind, Command.run_modify]
  dsimp only
  rw [run_onStore, StateStore.run_restore ht]
  cases decode Cells bs <;> rfl

variable [Encoding α]

theorem store_entries_eq {s : StateStore} (hs : s.faults = .none) :
    (entryCell α).entries s =
      match (entryCell α).listing { cells := s.cells } with
      | .ok found => .ok found s
      | .error e => .error e s := by
  rw [StateStore.run_entries (entryCell α) hs]
  show Command.ofExcept ((entryCell α).listing { cells := s.cells }) s = _
  cases (entryCell α).listing { cells := s.cells } <;> rfl

/-- All of the contents lie in the store. -/
structure Settled (t : Table α) (cells : Cells) : Prop where
  faults : t.store.faults = .none
  cells : t.store.cells = cells
  buffer : t.buffer = ∅

theorem Settled.contents {t : Table α} {cells : Cells} (h : t.Settled cells) :
    t.contents = cells := by
  rw [Table.contents, h.buffer, overlay_empty, h.cells]

theorem exists_flush {t : Table α} (ht : t.store.faults = .none) :
    ∃ t', flush t = .ok () t' ∧ t'.Settled t.contents := by
  obtain ⟨current, drains, h⟩ := flush_eq ht
  exact ⟨_, h, ht, rfl, rfl⟩

/-- Listing moves the contents into the store. -/
theorem exists_entries {t : Table α} (ht : t.store.faults = .none) :
    ∃ t', t'.Settled t.contents ∧ entries t =
      match t.contents.listing α with
      | .ok l => .ok l t'
      | .error e => .error e t' := by
  obtain ⟨t', hflush, hset⟩ := exists_flush ht
  refine ⟨t', hset, ?_⟩
  unfold entries Cells.listing
  rw [Command.run_bind, hflush]
  dsimp only
  rw [Command.run_bind, run_onStore, store_entries_eq hset.faults, hset.cells]
  cases (entryCell α).listing { cells := t.contents } with
  | error e => rfl
  | ok found =>
    show Command.ofExcept (found.mapM fun q => (·, q.2) <$> slotOf q.1) t' =
      match found.mapM fun q => (·, q.2) <$> slotOf q.1 with
      | .ok l => .ok l t'
      | .error e => .error e t'
    cases found.mapM fun q => (·, q.2) <$> slotOf q.1 <;> rfl

theorem refines_snapshot [LawfulEncoding α] :
    Refines (snapshot (α := α)) (fun cs => .ok (encode cs, cs)) := by
  intro t ht
  obtain ⟨t', hflush, hset⟩ := exists_flush ht.faults
  refine ⟨t', ?_, ⟨hset.faults, hset.cells ▸ ht.contents⟩, hset.contents⟩
  unfold snapshot
  rw [Command.run_bind, hflush]
  dsimp only
  rw [run_onStore, StateStore.run_snapshot hset.faults, hset.cells]

end Table

end Tidemark
