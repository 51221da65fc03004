import Tidemark.Proofs.Table.Soundness
import Tidemark.Proofs.Window.Absorption

/-! Handing state over from merged sessions. A table tracks a key when the key's list of sessions
names just the windows that have an entry. Folding a candidate into such a list moves the entries
of the windows that it absorbs into the window that it grows to, wherever they are kept and whether
or not the buffer is spilled on the way, and moves nothing else. -/

namespace Tidemark

namespace Cells

variable {α : Type} [Encoding α] {cs : Cells}

theorem getElem?_dropAll (key : Bytes) (ws : List Window) (cs : Cells) (id : CellId) :
    (cs.dropAll key ws)[id]? = if ∃ w ∈ ws, Slot.cell ⟨key, w⟩ = id then none else cs[id]? := by
  induction ws generalizing cs with
  | nil => simp [dropAll]
  | cons w ws ih =>
    refine (ih (cs.dropEntry ⟨key, w⟩)).trans ?_
    rw [getElem?_dropEntry]
    by_cases hw : Slot.cell ⟨key, w⟩ = id <;> simp [hw]

/-- The windows that were taken in leave nothing behind. -/
theorem getElem?_handOver (firesAt : Window → Timestamp) (key : Bytes) (m : Merger)
    (found : Option α) (cs : Cells) {w : Window} (hw : w ∈ m.absorbed) (hne : w ≠ m.merged) :
    (cs.handOver firesAt key m found)[Slot.cell ⟨key, w⟩]? = none := by
  have hcell : Slot.cell ⟨key, m.merged⟩ ≠ Slot.cell ⟨key, w⟩ := by
    rw [ne_eq, Slot.cell_inj, Slot.mk.injEq]
    exact fun h => hne h.2.symm
  cases found with
  | none => exact (getElem?_dropAll key _ cs _).trans (if_pos ⟨w, hw, rfl⟩)
  | some acc =>
    rw [handOver, getElem?_setEntry, if_neg hcell, getElem?_dropAll]
    exact if_pos ⟨w, hw, rfl⟩

theorem entryAt_handOver [LawfulEncoding α] (firesAt : Window → Timestamp) (key : Bytes)
    (m : Merger) {found : Option α} {cs : Cells}
    (hnone : found = none → cs.entryAt α ⟨key, m.merged⟩ = none) :
    (cs.handOver firesAt key m found).entryAt α ⟨key, m.merged⟩ =
      found.map (⟨·, firesAt m.merged⟩) := by
  cases found with
  | none => simp [handOver, entryAt_dropAll, hnone rfl]
  | some acc => simp [handOver]

end Cells

namespace Table

variable {ν α ω : Type} [Encoding α] {t : Table α} {key : Bytes} {live : List Window}

/-! ### Running a merge -/

theorem ReadableAt.dropEntry {cs : Cells} {s : Slot} (h : ReadableAt α cs s) (r : Slot) :
    ReadableAt α (cs.dropEntry r) s := by
  intro bs hbs
  rw [Cells.getElem?_dropEntry] at hbs
  split at hbs
  · cases hbs
  · exact h bs hbs

omit [Encoding α] in
theorem append_eq (g : Aggregate ν α ω) (target : Window) (acc : Option α) (e : Entry α)
    (t : Table α) :
    append g target acc (some e) t =
      match g.join acc e.acc with
      | .ok acc => .ok acc t
      | .error reason => .error (.aggregation target reason) t := by
  cases acc with
  | none => rfl
  | some acc =>
    simp only [append, Aggregate.join, map_eq_pure_bind, Command.run_bind, run_aggregated]
    cases g.merge acc e.acc <;> rfl

omit [Encoding α] in
theorem sessions_eq (ht : t.store.faults = .none) (h : t.store.cells.sessions key = .ok live) :
    sessions key t = .ok live (t.storing t.store.cells key) := by
  have hid : (⟨sessionCell.state, key, []⟩ : CellId) = sessionsAt key := rfl
  unfold sessions
  rw [Command.run_bind, run_onStore, StateStore.select_get _ ht, hid]
  unfold Cells.sessions at h
  cases hcell : t.store.cells[sessionsAt key]? with
  | none =>
    rw [hcell] at h
    obtain rfl := Except.ok.inj h
    rfl
  | some bs =>
    rw [hcell] at h
    dsimp only at h ⊢
    cases hread : StateStore.read (List Window) sessionCell.state bs with
    | error e =>
      rw [hread] at h
      cases h
    | ok ws =>
      rw [hread] at h
      obtain rfl := Except.ok.inj h
      rfl

variable [LawfulEncoding α]

theorem exists_take (ht : t.store.faults = .none) {s : Slot}
    (hs : ReadableAt α t.store.cells s) :
    ∃ u : Table α, take s t = .ok (t.contents.entryAt α s) u ∧ u.store.faults = .none ∧
      u.contents = t.contents.dropEntry s ∧
      ∀ r, ReadableAt α t.store.cells r → ReadableAt α u.store.cells r :=
  ⟨_, take_eq ht hs, ht, overlay_erase t.buffer t.store.cells s, fun _ hr => hr.dropEntry s⟩

/-- Gathering entries that can be read does to the contents what it does to a ledger. -/
theorem gather_eq (g : Aggregate ν α ω) (target : Window) {ws : List Window} (hws : ws.Nodup)
    (ht : t.store.faults = .none) (hread : ∀ w ∈ ws, ReadableAt α t.store.cells ⟨key, w⟩)
    {acc found : Option α} (hfound : (t.contents.accs α key ws).foldlM g.join acc = .ok found) :
    ∃ t', gather g key target acc ws t = .ok found t' ∧ t'.store.faults = .none ∧
      t'.contents = t.contents.dropAll key ws := by
  induction ws generalizing t acc with
  | nil => exact ⟨t, congrArg (EStateM.Result.ok · t) (Except.ok.inj hfound), ht, rfl⟩
  | cons w ws ih =>
    obtain ⟨hw, hws⟩ := List.nodup_cons.1 hws
    obtain ⟨u, htake, hu, hcells, hreads⟩ := exists_take ht (hread w (by simp))
    have hrest : ∀ acc', (t.contents.accs α key ws).foldlM g.join acc' = .ok found →
        ∃ t', gather g key target acc' ws u = .ok found t' ∧ t'.store.faults = .none ∧
          t'.contents = t.contents.dropAll key (w :: ws) := by
      intro acc' h
      rw [← Cells.accs_dropEntry t.contents hw, ← hcells] at h
      obtain ⟨t', hrun, hfaults, hcells'⟩ :=
        ih hws hu (fun v hv => hreads _ (hread v (by simp [hv]))) h
      exact ⟨t', hrun, hfaults, hcells'.trans (by rw [hcells]; rfl)⟩
    have hstep : gather g key target acc (w :: ws) t =
        (append g target acc (t.contents.entryAt α ⟨key, w⟩) >>= fun acc =>
          gather g key target acc ws) u := by
      have hcons : gather g key target acc (w :: ws) t =
          ((take ⟨key, w⟩ >>= append g target acc) >>= fun acc => gather g key target acc ws) t :=
        rfl
      rw [hcons, Command.run_bind, Command.run_bind, htake, Command.run_bind]
    cases he : t.contents.entryAt α ⟨key, w⟩ with
    | none =>
      have hcons : t.contents.accs α key (w :: ws) = t.contents.accs α key ws := by
        simp [Cells.accs, he]
      rw [hcons] at hfound
      rw [hstep, he]
      exact hrest acc hfound
    | some e =>
      have hcons : t.contents.accs α key (w :: ws) = e.acc :: t.contents.accs α key ws := by
        simp [Cells.accs, he]
      rw [hcons, List.foldlM_cons] at hfound
      rw [hstep, he, Command.run_bind, append_eq]
      cases hjoin : g.join acc e.acc with
      | error reason =>
        rw [hjoin] at hfound
        cases hfound
      | ok acc' =>
        rw [hjoin] at hfound
        exact hrest acc' hfound

omit [LawfulEncoding α] in
theorem exists_hold (ht : t.store.faults = .none) (firesAt : Window → Timestamp) (key : Bytes)
    {m : Merger} (found : Option α) {cs : Cells}
    (hcells : t.contents = cs.dropAll key m.absorbed) :
    ∃ u : Table α, (found.forM fun acc => hold ⟨key, m.merged⟩ ⟨acc, firesAt m.merged⟩) t =
        .ok () u ∧
      u.store.faults = .none ∧ u.contents = cs.handOver firesAt key m found := by
  cases found with
  | none => exact ⟨t, rfl, ht, hcells⟩
  | some acc =>
    refine ⟨_, rfl, ht, (overlay_insert t.buffer t.store.cells _ _).trans ?_⟩
    exact congrArg (Cells.setEntry · _ _) hcells

omit [LawfulEncoding α] in
theorem exists_setSessions (ht : t.store.faults = .none) (key : Bytes) (ws : List Window) :
    ∃ u : Table α, setSessions key ws t = .ok () u ∧ u.store.faults = .none ∧
      u.contents = t.contents.setSessions key ws :=
  ⟨_, setSessions_eq ht key ws, ht, overlay_setSessions t.buffer t.store.cells key ws⟩

omit [LawfulEncoding α] in
theorem exists_spill (ht : t.store.faults = .none) :
    ∃ u : Table α, spill t = .ok () u ∧ u.contents = t.contents := by
  simp only [spill, Command.run_bind, Command.run_get]
  split
  · obtain ⟨current, drains, h⟩ := flush_eq ht
    exact ⟨_, h, rfl⟩
  · exact ⟨t, rfl, rfl⟩

/-- A merge that is not idle hands the absorbed entries over and settles the list of sessions. -/
theorem exists_mergeSession (g : Aggregate ν α ω) (firesAt : Window → Timestamp)
    (ht : t.store.faults = .none) (hlive : t.store.cells.sessions key = .ok live)
    {candidate : Window} {m : Merger} (hm : Window.absorb live candidate = m)
    (hnodup : m.absorbed.Nodup) (hread : ∀ w ∈ m.absorbed, ReadableAt α t.store.cells ⟨key, w⟩)
    {found : Option α} (hfound : g.combine (t.contents.accs α key m.absorbed) = .ok found)
    (hidle : ¬ m.isIdle) :
    ∃ t', mergeSession g firesAt key candidate t =
        .ok ⟨m.merged, m.absorbed.filter (· ≠ m.merged)⟩ t' ∧
      t'.contents = (t.contents.handOver firesAt key m found).setSessions key
        (Window.settled live candidate) := by
  subst hm
  obtain ⟨t₁, hgather, ht₁, hcells₁⟩ := gather_eq (t := t.storing t.store.cells key) g
    (Window.absorb live candidate).merged hnodup ht hread hfound
  obtain ⟨t₂, hhold, ht₂, hcells₂⟩ := exists_hold ht₁ firesAt key found hcells₁
  obtain ⟨t₃, hset, ht₃, hcells₃⟩ := exists_setSessions ht₂ key (Window.settled live candidate)
  obtain ⟨t₄, hspill, hcells₄⟩ := exists_spill ht₃
  refine ⟨t₄, ?_, by rw [hcells₄, hcells₃, hcells₂]; rfl⟩
  unfold Window.settled at hset
  simp only [mergeSession, Command.run_bind, sessions_eq ht hlive, if_neg hidle, hgather, hhold,
    hset, hspill, Command.run_pure]

/-! ### Keys whose sessions are tracked -/

/-- The list of sessions of a key is ascending and scattered and names just the windows that have
an entry. What is stored of them can be read, even where a buffered entry hides it, and the list is
not so long that it cannot grow. -/
structure Tracks (t : Table α) (key : Bytes) (live : List Window) : Prop where
  faults : t.store.faults = .none
  sessions : t.store.cells.sessions key = .ok live
  ascending : Window.Ascending live
  scattered : Window.Scattered live
  length : live.length + 1 < 2 ^ 64
  entries : ∀ w, w ∈ live ↔ (t.live? ⟨key, w⟩).isSome
  readable : ∀ w, ReadableAt α t.store.cells ⟨key, w⟩

/-- What became of a table in which a candidate of a key grew to `m`, when the accumulators of the
absorbed windows merge to `found`. -/
structure HandsOver (firesAt : Window → Timestamp) (key : Bytes) (live : List Window) (m : Merger)
    (found : Option α) (t t' : Table α) : Prop where
  /-- Just the listed windows that touch the window grown to are absorbed. -/
  absorbed : m.absorbed = live.filter m.merged.touches
  missing : found = none ↔ m.absorbed = []
  merged : t'.live? ⟨key, m.merged⟩ =
    if m.absorbed = [m.merged] then t.live? ⟨key, m.merged⟩
    else found.map (⟨·, firesAt m.merged⟩)
  retired : ∀ w ∈ m.absorbed, w ≠ m.merged →
    t'.buffer[(⟨key, w⟩ : Slot)]? = none ∧ t'.store.cells[Slot.cell ⟨key, w⟩]? = none
  others : ∀ s : Slot, (s.key = key → s.window ≠ m.merged ∧ s.window ∉ m.absorbed) →
    t'.live? s = t.live? s
  sessions : ∃ live', t'.store.cells.sessions key = .ok live' ∧
    Window.Ascending live' ∧ Window.Scattered live' ∧
    ∀ w, w ∈ live' ↔ w = m.merged ∨ w ∈ live ∧ w ∉ m.absorbed
  otherSessions : ∀ key', key' ≠ key → t'.store.cells.sessions key' = t.store.cells.sessions key'

/-- The accumulators of some windows of a key, from the buffer or the store. -/
def accs (t : Table α) (key : Bytes) (ws : List Window) : List α :=
  ws.filterMap fun w => (t.live? ⟨key, w⟩).map Entry.acc

theorem accs_eq (t : Table α) (key : Bytes) (ws : List Window) :
    t.accs key ws = t.contents.accs α key ws :=
  List.filterMap_congr fun w _ => by rw [entryAt_contents]; rfl

theorem live?_eq (t : Table α) (s : Slot) : t.live? s = t.contents.entryAt α s :=
  (entryAt_contents t s).symm

omit [LawfulEncoding α] in
/-- What the contents have no cell for is neither buffered nor stored. -/
theorem absent_of_contents {s : Slot} (h : t.contents[s.cell]? = none) :
    t.buffer[s]? = none ∧ t.store.cells[s.cell]? = none := by
  rw [contents, getElem?_overlay_cell, Option.or_eq_none_iff, Option.map_eq_none_iff] at h
  exact h

section Merge

variable {candidate : Window} {m : Merger} {found : Option α} {g : Aggregate ν α ω}
  {firesAt : Window → Timestamp}

omit [LawfulEncoding α] in
/-- Every absorbed window has an accumulator, so some come out unless none is absorbed. -/
theorem Tracks.missing_iff (h : t.Tracks key live) (hm : Window.absorb live candidate = m)
    (hfound : g.combine (t.accs key m.absorbed) = .ok found) :
    found = none ↔ m.absorbed = [] := by
  constructor
  · rintro rfl
    have hnil := g.combine_eq_none hfound
    refine List.eq_nil_iff_forall_not_mem.2 fun w hw => ?_
    subst hm
    obtain ⟨e, he⟩ := Option.isSome_iff_exists.1
      ((h.entries w).1 (Window.mem_absorbed_iff.1 hw).1)
    have hacc : e.acc ∈ t.accs key (Window.absorb live candidate).absorbed :=
      List.mem_filterMap.2 ⟨w, hw, by rw [he]; rfl⟩
    rw [hnil] at hacc
    cases hacc
  · intro habs
    rw [habs] at hfound
    exact (Except.ok.inj hfound).symm

omit [LawfulEncoding α] in
theorem Tracks.length_settled (h : t.Tracks key live) (candidate : Window) :
    (Window.settled live candidate).length < 2 ^ 64 := by
  have hle := List.length_filter_le
    (· ∉ (Window.absorb live candidate).absorbed) live
  have hlen := h.length
  rw [Window.settled, (Window.sort_perm _).length_eq, List.length_append, List.length_singleton]
  omega

/-- A candidate inside one listed window changes no contents. -/
theorem Tracks.handsOver_of_idle (h : t.Tracks key live) (hc : candidate.Proper)
    (hm : Window.absorb live candidate = m) (hfound : g.combine (t.accs key m.absorbed) = .ok found)
    (hidle : m.absorbed = [m.merged]) {t' : Table α} (hcells : t'.contents = t.contents) :
    HandsOver firesAt key live m found t t' where
  absorbed := hm ▸ Window.absorbed_eq_within h.ascending candidate
  missing := h.missing_iff hm hfound
  merged := by rw [if_pos hidle, live?_eq, live?_eq, hcells]
  retired w hw hne := by
    rw [hidle] at hw
    exact absurd (List.mem_singleton.1 hw) hne
  others s _ := by rw [live?_eq, live?_eq, hcells]
  sessions := by
    subst hm
    refine ⟨live, ?_, h.ascending, h.scattered, fun w => ?_⟩
    · rw [← sessions_contents, hcells, sessions_contents, h.sessions]
    · rw [← Window.mem_settled, Window.settled_of_absorbed_eq h.ascending hc hidle]
  otherSessions key' _ := by rw [← sessions_contents, hcells, sessions_contents]

/-- Otherwise the absorbed windows hand over to the window that the candidate grew to. -/
theorem Tracks.handsOver (h : t.Tracks key live) (hc : candidate.Proper)
    (hm : Window.absorb live candidate = m) (hfound : g.combine (t.accs key m.absorbed) = .ok found)
    (hidle : m.absorbed ≠ [m.merged]) {t' : Table α}
    (hcells : t'.contents = (t.contents.handOver firesAt key m found).setSessions key
      (Window.settled live candidate)) :
    HandsOver firesAt key live m found t t' := by
  have hmissing := h.missing_iff hm hfound
  have hlen := h.length_settled candidate
  have hsessions : ∀ key', t'.store.cells.sessions key' =
      if key = key' then .ok (Window.settled live candidate)
      else t.store.cells.sessions key' := fun key' => by
    rw [← sessions_contents, hcells, Cells.sessions_setSessions _ hlen, Cells.sessions_handOver,
      sessions_contents]
  subst hm
  -- the window grown to is new when nothing is absorbed, as it would touch itself
  have hnone : found = none →
      t.contents.entryAt α ⟨key, (Window.absorb live candidate).merged⟩ = none := by
    intro hf
    rw [← live?_eq, ← Option.not_isSome_iff_eq_none, ← h.entries,
      ← Window.merged_mem_absorbed hc, hmissing.1 hf]
    exact List.not_mem_nil
  exact
    { absorbed := Window.absorbed_eq_within h.ascending candidate
      missing := hmissing
      merged := by
        rw [if_neg hidle, live?_eq, hcells, Cells.entryAt_setSessions]
        exact Cells.entryAt_handOver _ _ _ hnone
      retired := fun w hw hne => absent_of_contents (by
        rw [hcells, Cells.getElem?_setSessions, if_neg (Slot.cell_ne_sessionsAt _ key).symm]
        exact Cells.getElem?_handOver _ _ _ _ _ hw hne)
      others := fun s hs => by
        have hne : s ≠ ⟨key, (Window.absorb live candidate).merged⟩ := fun he =>
          (hs (by rw [he])).1 (by rw [he])
        rw [live?_eq, live?_eq, hcells, Cells.entryAt_setSessions,
          Cells.entryAt_handOver_of_ne _ _ _ _ hne, if_neg fun ⟨hk, hw⟩ => (hs hk).2 hw]
      sessions := ⟨_, (hsessions key).trans (if_pos rfl),
        Window.ascending_settled h.ascending hc, Window.scattered_settled h.scattered candidate,
        fun _ => Window.mem_settled⟩
      otherSessions := fun key' hk => (hsessions key').trans (if_neg (Ne.symm hk)) }

/-- Folding a candidate into the sessions of a tracked key moves the entries of the windows that it
absorbs into one entry of the window that it grows to, as long as they merge, and nothing else. -/
theorem mergeSession_handsOver (g : Aggregate ν α ω) (firesAt : Window → Timestamp)
    (h : t.Tracks key live) (hc : candidate.Proper) (hm : Window.absorb live candidate = m)
    (hfound : g.combine (t.accs key m.absorbed) = .ok found) :
    ∃ t', mergeSession g firesAt key candidate t =
        .ok ⟨m.merged, m.absorbed.filter (· ≠ m.merged)⟩ t' ∧
      HandsOver firesAt key live m found t t' := by
  by_cases hidle : m.absorbed = [m.merged]
  · have hi : m.isIdle := by simpa [Merger.isIdle] using hidle
    refine ⟨t.storing t.store.cells key, ?_, h.handsOver_of_idle hc hm hfound hidle rfl⟩
    subst hm
    simp only [mergeSession, Command.run_bind, sessions_eq h.faults h.sessions, if_pos hi,
      Command.run_pure]
    rw [hidle]
    simp
  · have hi : ¬ m.isIdle := by simpa [Merger.isIdle] using hidle
    have hnodup : m.absorbed.Nodup :=
      hm ▸ (Window.ascending_absorbed h.ascending candidate).nodup
    obtain ⟨t', hrun, hcells⟩ := exists_mergeSession g firesAt h.faults h.sessions hm hnodup
      (fun w _ => h.readable w) (accs_eq t key _ ▸ hfound) hi
    exact ⟨t', hrun, h.handsOver hc hm hfound hidle hcells⟩

end Merge

/-- Three sessions of a key: one buffered in front of an older stored entry, two stored only. -/
def threeSessions : Table (Option Int64) where
  store.cells := (writeAll [(⟨[7], ⟨0, 10⟩⟩, (⟨some 1, 10⟩ : Entry (Option Int64))),
    (⟨[7], ⟨20, 30⟩⟩, ⟨some 5, 30⟩), (⟨[7], ⟨40, 50⟩⟩, ⟨some 8, 50⟩)] ∅).setSessions
      [7] [⟨0, 10⟩, ⟨20, 30⟩, ⟨40, 50⟩]
  buffer := (∅ : Std.ExtTreeMap Slot (Entry (Option Int64))).insert ⟨[7], ⟨0, 10⟩⟩ ⟨some 2, 10⟩
  capacity := 0

theorem tracks_threeSessions :
    threeSessions.Tracks [7] [⟨0, 10⟩, ⟨20, 30⟩, ⟨40, 50⟩] where
  faults := rfl
  sessions := by
    rw [threeSessions, Cells.sessions_setSessions _ (by decide), if_pos rfl]
  ascending := by
    unfold Window.Ascending
    decide
  scattered := by
    unfold Window.Scattered
    decide
  length := by decide
  entries w := by
    simp only [threeSessions, live?, writeAll, List.foldl_cons, List.foldl_nil,
      Cells.entryAt_setSessions, Cells.entryAt_setEntry, Cells.entryAt_empty,
      Std.ExtTreeMap.getElem?_insert, Std.compare_eq_iff_eq, Slot.mk.injEq]
    grind
  readable w := by
    have hempty : EntriesReadable (Option Int64) ∅ := fun id bs _ h => by simp at h
    exact ((EntriesReadable.writeAll _ hempty).setSessions _ _).readableAt _

/-- A candidate from 5 to 25 joins the first two of three sessions, and the buffer is spilled. The
buffered entry of the first session counts. -/
theorem mergeSession_threeSessions : ∃ t', mergeSession (.reduce fun a b => a - b) Window.stop [7]
      ⟨5, 25⟩ threeSessions = .ok ⟨⟨0, 30⟩, [⟨0, 10⟩, ⟨20, 30⟩]⟩ t' ∧
    HandsOver Window.stop [7] [⟨0, 10⟩, ⟨20, 30⟩, ⟨40, 50⟩] ⟨⟨0, 30⟩, [⟨0, 10⟩, ⟨20, 30⟩]⟩
      (some (some (-3))) threeSessions t' := by
  have habsorb : Window.absorb [⟨0, 10⟩, ⟨20, 30⟩, ⟨40, 50⟩] ⟨5, 25⟩ =
      ⟨⟨0, 30⟩, [⟨0, 10⟩, ⟨20, 30⟩]⟩ := by
    rw [Window.absorb_of_apart (by unfold Window.Proper; decide) (by unfold Window.Apart; decide)]
    decide
  have haccs : threeSessions.accs [7] [⟨0, 10⟩, ⟨20, 30⟩] = [some 2, some 5] := by
    simp [accs, live?, threeSessions, writeAll, Std.ExtTreeMap.getElem?_insert]
  refine mergeSession_handsOver (.reduce fun a b => a - b) Window.stop tracks_threeSessions
    (by unfold Window.Proper; decide) habsorb ?_
  rw [haccs]
  rfl

end Table

end Tidemark
