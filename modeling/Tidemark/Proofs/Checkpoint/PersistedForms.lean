import Tidemark.Proofs.Encoding.Exactness
import Tidemark.Proofs.Operator.Running
import Tidemark.Proofs.Table.Handover

/-! The forms that outlive an operator: images, manifests, windows, entries, session lists and keys.
Each is decoded exactly from what it is encoded as. So the cells of distinct keys and of distinct
windows are distinct, and an image that is cut short restores nothing. -/

namespace Tidemark

namespace Encoding

variable {α : Type} [Encoding α] {fits : α → Prop}

/-- Bytes that follow a form are ignored, a form that is cut short is an error, and whatever is
decoded was encoded. -/
structure ReadsExactly (α : Type) [Encoding α] (fits : α → Prop) : Prop where
  read : ∀ x, fits x → ∀ more, decode α (encode x ++ more) = .ok x
  cut : ∀ x, fits x → ∀ front, front <+: encode x → front ≠ encode x →
    ∃ e, decode α front = .error e
  canonical : ∀ bs x, decode α bs = .ok x → fits x ∧ encode x <+: bs

theorem Exact.readsExactly (h : Exact α fits) : ReadsExactly α fits where
  read x hx more := (h.faithful x hx).decode_append more
  cut x hx front hfront hne := by
    have := h.steadyEncoding
    obtain ⟨cut, hsplit⟩ := hfront
    refine (h.faithful x hx).decode_eq_error hsplit fun hnil => hne ?_
    rw [← hsplit, hnil, List.append_nil]
  canonical bs x hdecode := by
    unfold decode at hdecode
    cases hrun : (decoder : Decoder α).run bs with
    | error e =>
      rw [hrun] at hdecode
      cases hdecode
    | ok q =>
      rw [hrun] at hdecode
      obtain rfl := Except.ok.inj hdecode
      obtain ⟨hfits, hbs⟩ := @h.found bs q.2 q.1 hrun
      exact ⟨hfits, q.2, hbs.symm⟩

end Encoding

/-! ### Slots of keys -/

namespace Table

variable {α : Type} [Encoding α] {t u : Table α}

/-- Loading a slot looks at its own cell only. -/
theorem answer_load_congr (ht : t.store.faults = .none) (hu : u.store.faults = .none) {s : Slot}
    (h : t.store.cells[s.cell]? = u.store.cells[s.cell]?) :
    (load (α := α) s).answer t = (load s).answer u := by
  have hid : (⟨(entryCell α).state, s.key, encode s.window⟩ : CellId) = s.cell := rfl
  unfold load Command.answer
  rw [run_onStore, run_onStore, StateStore.select_get _ ht, StateStore.select_get _ hu, hid, h]
  cases u.store.cells[s.cell]? with
  | none => rfl
  | some bs =>
    dsimp only
    cases StateStore.read (Entry α) (entryCell α).state bs <;> rfl

omit [Encoding α] in
/-- The sessions of a key are in a cell of their own. -/
theorem answer_sessions (ht : t.store.faults = .none) (key : Bytes) :
    (sessions key).answer t = t.store.cells.sessions key := by
  have hid : (⟨sessionCell.state, key, []⟩ : CellId) = sessionsAt key := rfl
  unfold Command.answer sessions Cells.sessions
  rw [Command.run_bind, run_onStore, StateStore.select_get _ ht, hid]
  cases t.store.cells[sessionsAt key]? with
  | none => rfl
  | some bs =>
    dsimp only
    cases StateStore.read (List Window) sessionCell.state bs <;> rfl

/-- A saved entry is loaded from its own slot and from no other. -/
theorem answer_load_saved [LawfulEncoding α] (ht : t.store.faults = .none) (s r : Slot)
    (e : Entry α) : (load r).answer ((save s e).after t) =
      if s = r then .ok (some e) else (load (α := α) r).answer t := by
  have hsave : (save s e).after t = t.storing (t.store.cells.setEntry s e) s.key := by
    rw [Command.after, save_eq ht]
  have hu : (t.storing (t.store.cells.setEntry s e) s.key).store.faults = .none := ht
  have hcell := t.store.cells.getElem?_setEntry s e r.cell
  rw [hsave]
  by_cases hsr : s = r
  · subst hsr
    rw [if_pos rfl] at hcell ⊢
    have hread : ReadableAt α (t.store.cells.setEntry s e) s := by
      intro bs hbs
      obtain rfl := Option.some.inj (hcell.symm.trans hbs)
      exact ⟨e, (faithful e).decode_encode⟩
    rw [Command.answer, load_eq hu hread]
    simp [storing]
  · rw [if_neg fun h => hsr (Slot.cell_inj.1 h)] at hcell
    rw [if_neg hsr]
    exact answer_load_congr hu ht hcell

omit [Encoding α] in
theorem answer_sessions_set (ht : t.store.faults = .none) (key key' : Bytes) {ws : List Window}
    (hlen : ws.length < 2 ^ 64) : (sessions key').answer ((setSessions key ws).after t) =
      if key = key' then .ok ws else (sessions key').answer t := by
  have hset : (setSessions key ws).after t = t.storing (t.store.cells.setSessions key ws) key := by
    rw [Command.after, setSessions_eq ht]
  have hu : (t.storing (t.store.cells.setSessions key ws) key).store.faults = .none := ht
  rw [hset, answer_sessions hu, answer_sessions ht]
  exact Cells.sessions_setSessions _ hlen key'

end Table

/-- What is kept for a key and a window is kept apart from what is kept for any other. -/
structure KeepsApart (κ : Type) [Encoding κ] [DecidableEq κ] (fits : κ → Prop) : Prop where
  /-- A slot's cell tells its key and its window. -/
  cells : ∀ k k', fits k → fits k' → ∀ w w',
    (⟨encode k, w⟩ : Slot).cell = (⟨encode k', w'⟩ : Slot).cell ↔ k = k' ∧ w = w'
  /-- A saved entry is loaded from its own slot and from no other. -/
  entries : ∀ {α : Type} [Encoding α] [LawfulEncoding α] (t : Table α), t.store.faults = .none →
    ∀ k k', fits k → fits k' → ∀ w w' e,
      (Table.load ⟨encode k', w'⟩).answer ((Table.save ⟨encode k, w⟩ e).after t) =
        if k = k' ∧ w = w' then .ok (some e) else (Table.load ⟨encode k', w'⟩).answer t
  /-- The sessions that are set for a key are the sessions of that key and of no other. -/
  sessions : ∀ {α : Type} (t : Table α), t.store.faults = .none →
    ∀ k k', fits k → fits k' → ∀ ws : List Window, ws.length < 2 ^ 64 →
      (Table.sessions (encode k')).answer ((Table.setSessions (encode k) ws).after t) =
        if k = k' then .ok ws else (Table.sessions (encode k')).answer t

theorem KeepsApart.of_exact {κ : Type} [Encoding κ] [DecidableEq κ] {fits : κ → Prop}
    (h : Encoding.Exact κ fits) : KeepsApart κ fits := by
  have hkey : ∀ {k k'}, fits k → fits k' → (encode k = encode k' ↔ k = k') :=
    fun hk hk' => ⟨h.encode_injective hk hk', congrArg encode⟩
  refine ⟨fun k k' hk hk' w w' => ?_, fun t ht k k' hk hk' w w' e => ?_,
    fun t ht k k' hk hk' ws hlen => ?_⟩
  · rw [Slot.cell_inj, Slot.mk.injEq, hkey hk hk']
  · simp only [Table.answer_load_saved ht, Slot.mk.injEq, hkey hk hk']
  · simp only [Table.answer_sessions_set ht _ _ hlen, hkey hk hk']

/-! ### Images that are cut short -/

namespace Operator

variable {κ α ω : Type} [Encoding α] {o : Operator κ α ω}

/-- Bytes that are no image restore nothing. -/
theorem restore_of_parse (hrun : o.status = .running) {bs : Bytes} {e : DecodeError}
    (h : decode Image bs = .error e) :
    restore bs o = .error (.inContext "decode processor snapshot" (.decode e)) o := by
  have hparse : Image.parse bs = .error (.inContext "decode processor snapshot" (.decode e)) := by
    rw [Image.parse, decodeAs, h]
    rfl
  unfold restore
  rw [whileRunning_eq _ hrun, Command.run_bind, hparse]
  rfl

end Operator

/-! ### All persisted forms -/

open Encoding in
/-- Images, manifests, windows, entries, session lists and keys are decoded exactly from what they
are encoded as, while the lengths in them fit their fields. Keys and windows keep their slots
apart. A snapshot that is cut short anywhere restores nothing, and the operator runs on as it
was. -/
theorem persisted_forms_exact :
    (ReadsExactly Image (·.state.length < 2 ^ 64) ∧
      ReadsExactly Manifest (fun _ => True) ∧
      ReadsExactly Window (fun _ => True) ∧
      ReadsExactly (Entry (Option Int64)) (fun _ => True) ∧
      ReadsExactly (List Window) (·.length < 2 ^ 64) ∧
      ReadsExactly String (fun s => (utf8 s).length < 2 ^ 64) ∧
      ReadsExactly Int64 (fun _ => True) ∧
      ReadsExactly (String × Int32) (fun k => (utf8 k.1).length < 2 ^ 64)) ∧
    (KeepsApart String (fun s => (utf8 s).length < 2 ^ 64) ∧
      KeepsApart Int64 (fun _ => True) ∧
      KeepsApart (String × Int32) (fun k => (utf8 k.1).length < 2 ^ 64)) ∧
    ∀ {κ κ' α α' ω ω' : Type} [Encoding α] [Encoding α'] (source source' : Operator κ α ω)
      (o : Operator κ' α' ω') (bs front : Bytes),
      Operator.snapshot source = .ok bs source' → bs.length < 2 ^ 64 →
        front <+: bs → front ≠ bs → o.status = .running →
          ∃ cause, Operator.restore front o =
            .error (.inContext "decode processor snapshot" (.decode cause)) o := by
  have hpair : Exact (String × Int32) fun k => (utf8 k.1).length < 2 ^ 64 :=
    (exact_text.pair exact).congr fun _ => by simp
  refine ⟨⟨exact_image.readsExactly, exact.readsExactly, exact.readsExactly, exact.readsExactly,
    exact_list.readsExactly, exact_text.readsExactly, exact.readsExactly,
    hpair.readsExactly⟩, ⟨.of_exact exact_text, .of_exact exact, .of_exact hpair⟩, ?_⟩
  intro κ κ' α α' ω ω' _ _ source source' o bs front hsnapshot hlen hfront hne hrun
  obtain ⟨state, rfl⟩ := Operator.exists_image hsnapshot
  have hfits := Nat.lt_of_le_of_lt (length_state_le _) hlen
  obtain ⟨cause, hcut⟩ := exact_image.readsExactly.cut _ hfits front hfront hne
  exact ⟨cause, Operator.restore_of_parse hrun hcut⟩

/-- A text that is followed by a byte is read back, and of a snapshot that breaks off in its third
field nothing is restored. -/
theorem persisted_forms_exact_cut :
    decode String (encode "key" ++ [7]) = .ok "key" ∧
    let job := Job.wrappingSums ⟨{ shape := .tumbling 10 }, by decide⟩
    let o := (job.take (.record 0 1 1 7)).after (job.start {})
    let bs := (Command.answer Operator.snapshot o).toOption.getD []
    bs.length = 126 ∧ ∃ cause, Operator.restore (bs.take 20) o =
      .error (.inContext "decode processor snapshot" (.decode cause)) o := by
  obtain ⟨⟨-, -, -, -, -, htext, -⟩, -, hcut⟩ := persisted_forms_exact
  refine ⟨htext.read "key" (by decide +kernel) [7], ?_⟩
  intro job o bs
  have hlen : bs.length = 126 := by decide +kernel
  have hsnapshot : (Command.answer Operator.snapshot o).toOption = some bs := by decide +kernel
  refine ⟨hlen, hcut o _ o bs (bs.take 20) (Command.run_of_answer hsnapshot) (by omega)
    (List.take_prefix 20 bs) (fun h => ?_) (by decide +kernel)⟩
  have := congrArg List.length h
  rw [List.length_take, hlen] at this
  omega

end Tidemark
