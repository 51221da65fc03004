import Mathlib.Data.List.Forall2
import Mathlib.Data.List.Nodup
import Tidemark.Proofs.Agenda
import Tidemark.Proofs.Operator.Calls
import Tidemark.Proofs.Table.Listing

/-! What the steps of a running operator do to the contents of its table and to its agenda. An
operator is sound when its contents are and when its agenda holds just the timers of the entries.
A step that fails does so for good, and only because the aggregate or the collector refuses. -/

namespace Tidemark

namespace Agenda

theorem fireAt?_foldl_cancel (key : Bytes) (ws : List Window) (a : Agenda) (s : Slot) :
    (ws.foldl (fun a w => (a.cancel ⟨key, w⟩).2) a).fireAt? s =
      if s.key = key ∧ s.window ∈ ws then none else a.fireAt? s := by
  induction ws generalizing a with
  | nil => simp
  | cons w ws ih =>
    apply (ih _).trans
    obtain ⟨key', w'⟩ := s
    rw [fireAt?_cancel]
    simp only [Slot.mk.injEq, List.mem_cons, eq_comm (a := key), eq_comm (a := w)]
    by_cases hk : key' = key
    · by_cases hw : w' = w <;> simp [hk, hw]
    · simp [hk]

theorem progress_foldl_cancel (key : Bytes) (ws : List Window) (a : Agenda) :
    (ws.foldl (fun a w => (a.cancel ⟨key, w⟩).2) a).progress = a.progress := by
  induction ws generalizing a with
  | nil => rfl
  | cons w ws ih => exact ih _

theorem fireAt?_foldl_register {α : Type} (l : List (Slot × Entry α)) (a : Agenda) (s : Slot) :
    (l.foldl (fun a q => (a.register q.1 q.2.fireAt).2) a).fireAt? s = a.fireAt? s ∧
        (∀ e, (s, e) ∉ l) ∨
      ∃ e, (s, e) ∈ l ∧
        (l.foldl (fun a q => (a.register q.1 q.2.fireAt).2) a).fireAt? s = some e.fireAt := by
  induction l generalizing a with
  | nil => exact .inl ⟨rfl, by simp⟩
  | cons q l ih =>
    obtain ⟨r, e⟩ := q
    rw [List.foldl_cons]
    rcases ih (a.register r e.fireAt).2 with ⟨hsame, hnone⟩ | ⟨e', hmem, hlast⟩
    · rw [hsame, fireAt?_register]
      by_cases hr : r = s
      · exact .inr ⟨e, by simp [hr], by rw [if_pos hr]⟩
      · exact .inl ⟨by rw [if_neg hr], fun e' => by simp [hnone e', Ne.symm hr]⟩
    · exact .inr ⟨e', by simp [hmem], hlast⟩

/-- The agenda of a list that holds one entry for a slot at most. -/
theorem fireAt?_ofEntries {α : Type} {l : List (Slot × Entry α)} {f : Slot → Option (Entry α)}
    (h : ∀ s e, (s, e) ∈ l ↔ f s = some e) (s : Slot) :
    (ofEntries l).fireAt? s = (f s).map Entry.fireAt := by
  rcases fireAt?_foldl_register l .initial s with ⟨hsame, hnone⟩ | ⟨e, hmem, hlast⟩
  · have hf : f s = none := Option.eq_none_iff_forall_ne_some.2 fun e he => hnone e ((h s e).2 he)
    rw [ofEntries, hsame, hf]
    simp [initial, empty, fireAt?]
  · rw [ofEntries, hlast, (h s e).1 hmem]
    rfl

end Agenda

namespace Operator

variable {κ ν α ω β γ : Type} [Encoding κ] [Encoding α]

/-- The entry of a slot, in the buffer or in the store. -/
def entryAt (o : Operator κ α ω) (s : Slot) : Option (Entry α) := o.table.contents.entryAt α s

/-- The table is sound, and the agenda holds just the timers of its entries. -/
structure Sound (p : Policy) (o : Operator κ α ω) : Prop where
  readable : o.table.Readable
  cells : Cells.Sound κ α p o.table.contents
  timely : ∀ s, o.agenda.fireAt? s = (o.entryAt s).map Entry.fireAt

/-- `o'` differs from `o` in its table and its timers only. -/
structure Undisturbed (o o' : Operator κ α ω) : Prop where
  progress : o'.progress = o.progress
  drops : o'.drops = o.drops
  lastTick : o'.lastTick = o.lastTick
  forwarded : o'.forwarded = o.forwarded
  status : o'.status = o.status
  collector : o'.collector = o.collector

omit [Encoding κ] [Encoding α] in
theorem undisturbed_rfl {o : Operator κ α ω} : Undisturbed o o := ⟨rfl, rfl, rfl, rfl, rfl, rfl⟩

omit [Encoding κ] [Encoding α] in
theorem Undisturbed.trans {o₁ o₂ o₃ : Operator κ α ω} (h : Undisturbed o₁ o₂)
    (h' : Undisturbed o₂ o₃) : Undisturbed o₁ o₃ :=
  ⟨h'.progress.trans h.progress, h'.drops.trans h.drops, h'.lastTick.trans h.lastTick,
    h'.forwarded.trans h.forwarded, h'.status.trans h.status, h'.collector.trans h.collector⟩

/-! ### Steps that answer, or fail for good -/

/-- When `c` answers, `post` holds afterwards; when it fails, it does so for good and with
`cause`. -/
def Ensures (c : Command (Operator κ α ω) β) (o : Operator κ α ω) (cause : Prop)
    (post : β → Operator κ α ω → Prop) : Prop :=
  match c o with
  | .ok x o' => post x o'
  | .error e _ => e.isFatal ∧ cause

variable {c : Command (Operator κ α ω) β} {k : β → Command (Operator κ α ω) γ}
  {o : Operator κ α ω} {cause : Prop}

omit [Encoding κ] [Encoding α] in
theorem Ensures.bind {m : β → Operator κ α ω → Prop} {post : γ → Operator κ α ω → Prop}
    (hc : Ensures c o cause m) (hk : ∀ x o', m x o' → Ensures (k x) o' cause post) :
    Ensures (c >>= k) o cause post := by
  unfold Ensures at hc ⊢
  rw [Command.run_bind]
  cases hrun : c o with
  | ok x o' =>
    rw [hrun] at hc
    exact hk x o' hc
  | error e o' =>
    rw [hrun] at hc
    exact hc

omit [Encoding κ] [Encoding α] in
theorem Ensures.mono {m post : β → Operator κ α ω → Prop} (hc : Ensures c o cause m)
    (h : ∀ x o', m x o' → post x o') : Ensures c o cause post := by
  unfold Ensures at hc ⊢
  cases hrun : c o with
  | ok x o' =>
    rw [hrun] at hc
    exact h x o' hc
  | error e o' =>
    rw [hrun] at hc
    exact hc

omit [Encoding κ] [Encoding α] in
/-- Without a cause to fail, a step answers. -/
theorem Ensures.exists_ok {post : β → Operator κ α ω → Prop} (h : Ensures c o cause post)
    (hcause : ¬ cause) : ∃ x o', c o = .ok x o' ∧ post x o' := by
  unfold Ensures at h
  cases hc : c o with
  | ok x o' =>
    rw [hc] at h
    exact ⟨x, o', rfl, h⟩
  | error e o' =>
    rw [hc] at h
    exact absurd h.2 hcause

omit [Encoding κ] [Encoding α] in
theorem ensures_get {k : Operator κ α ω → Command (Operator κ α ω) γ}
    {post : γ → Operator κ α ω → Prop} (h : Ensures (k o) o cause post) :
    Ensures (get >>= k) o cause post := h

omit [Encoding κ] [Encoding α] in
theorem ensures_set {o₁ : Operator κ α ω} {k : PUnit → Command (Operator κ α ω) γ}
    {post : γ → Operator κ α ω → Prop} (h : Ensures (k ⟨⟩) o₁ cause post) :
    Ensures (set o₁ >>= k) o cause post := h

omit [Encoding κ] [Encoding α] in
/-- A loop keeps what each of its rounds keeps; `inv` may speak of the rounds that are done. -/
theorem ensures_forM {f : γ → Command (Operator κ α ω) Unit} {l : List γ}
    (inv : List γ → Operator κ α ω → Prop)
    (hstep : ∀ fore x rest, l = fore ++ x :: rest → ∀ o, inv fore o →
      Ensures (f x) o cause fun _ => inv (fore ++ [x]))
    (ho : inv [] o) : Ensures (l.forM f) o cause fun _ => inv l := by
  suffices h : ∀ rest fore o, l = fore ++ rest → inv fore o →
      Ensures (rest.forM f) o cause fun _ => inv l from h l [] o rfl ho
  intro rest
  induction rest with
  | nil =>
    intro fore o hl hfore
    rw [hl, List.append_nil]
    exact hfore
  | cons x rest ih =>
    intro fore o hl hfore
    refine Ensures.bind (hstep fore x rest hl o hfore) fun _ o' ho' => ?_
    exact ih (fore ++ [x]) o' (by simp [hl]) ho'

omit [Encoding κ] [Encoding α] in
theorem run_onTable (c : Command (Table α) β) (o : Operator κ α ω) :
    onTable c o =
      match c o.table with
      | .ok x table => .ok x { o with table }
      | .error e table => .error e { o with table } := by
  simp only [onTable, Command.focus]
  cases c o.table <;> rfl

omit [Encoding κ] in
/-- A table command does to the operator's table what the ledger command does to the contents. -/
theorem onTable_eq {c : Command (Table α) β} {f : Ledger β} (h : Table.Refines c f)
    (ho : o.table.Readable) :
    match f o.table.contents with
    | .ok (x, cells) => ∃ table, onTable c o = .ok x { o with table } ∧ table.Readable ∧
        table.contents = cells
    | .error e => e.isFatal ∧ ∃ table, onTable c o = .error e { o with table } := by
  have ht := h o.table ho
  cases hf : f o.table.contents with
  | ok q =>
    rw [hf] at ht
    obtain ⟨table, hrun, hread, hcells⟩ := ht
    exact ⟨table, by rw [run_onTable, hrun], hread, hcells⟩
  | error e =>
    rw [hf] at ht
    obtain ⟨hfatal, table, hrun⟩ := ht
    exact ⟨hfatal, table, by rw [run_onTable, hrun]⟩

omit [Encoding κ] in
theorem ensures_onTable {c : Command (Table α) β} {f : Ledger β} (h : Table.Refines c f)
    (ho : o.table.Readable) {post : β → Operator κ α ω → Prop}
    (hok : ∀ x (table : Table α), f o.table.contents = .ok (x, table.contents) → table.Readable →
      post x { o with table })
    (herr : ∀ e, f o.table.contents = .error e → cause) : Ensures (onTable c) o cause post := by
  have ht := onTable_eq h ho
  unfold Ensures
  cases hf : f o.table.contents with
  | ok q =>
    rw [hf] at ht
    obtain ⟨table, hrun, hread, hcells⟩ := ht
    rw [hrun]
    exact hok q.1 table (by rw [hf, hcells]) hread
  | error e =>
    rw [hf] at ht
    obtain ⟨hfatal, table, hrun⟩ := ht
    rw [hrun]
    exact ⟨hfatal, herr e hf⟩

omit [Encoding κ] [Encoding α] in
theorem onTable_bind (c : Command (Table α) β) (k : β → Command (Table α) γ) :
    (onTable (c >>= k) : Command (Operator κ α ω) γ) = onTable c >>= fun x => onTable (k x) := by
  funext o
  rw [run_onTable, Command.run_bind, Command.run_bind, run_onTable]
  cases c o.table with
  | ok x t => exact (run_onTable (k x) { o with table := t }).symm
  | error e t => rfl

omit [Encoding κ] [Encoding α] in
theorem onTable_ite {m : Bool} (c : Command (Table α) Unit) :
    (if m then onTable c else pure () : Command (Operator κ α ω) Unit) =
      onTable (if m then c else pure ()) := by
  cases m <;> rfl

omit [Encoding κ] [Encoding α] in
/-- Handing over a result appends it, or fails for good; an open collector stays open. -/
theorem ensures_emit (e : Emission κ ω) (hcause : o.collector.admission ≠ .always → cause) :
    Ensures (emit e) o cause fun _ o' =>
      (o.collector.admission = .always → o'.collector.admission = .always) ∧
      o'.collector.items = o.collector.items ++ [e] ∧
      o' = { o with collector := o'.collector } := by
  obtain ⟨table, agenda, drops, lastTick, forwarded, status, ⟨admission, items⟩⟩ := o
  cases admission with
  | always => exact ⟨fun h => h, rfl, rfl⟩
  | receiverGone => exact ⟨rfl, hcause (by simp)⟩
  | quota left =>
    cases left with
    | zero => exact ⟨rfl, hcause (by simp)⟩
    | succ left => exact ⟨fun h => by simp at h, rfl, rfl⟩

end Operator

namespace Aggregate

/-- `e` is the result of the entry `x` of a slot. -/
structure Releases {κ ν α ω : Type} [Encoding κ] (g : Aggregate ν α ω) (s : Slot) (x : Entry α)
    (e : Emission κ ω) : Prop where
  faithful : Encoding.Faithful e.key
  slot : s = ⟨encode e.key, e.window⟩
  result : g.result x.acc = .ok e.value

/-- An entry has one result. -/
theorem Releases.unique {κ ν α ω : Type} [Encoding κ] {g : Aggregate ν α ω} {s : Slot} {x : Entry α}
    {e e' : Emission κ ω} (h : g.Releases s x e) (h' : g.Releases s x e') : e = e' := by
  obtain ⟨key, window, value⟩ := e
  obtain ⟨key', window', value'⟩ := e'
  obtain ⟨hbytes, hwindow⟩ := Slot.mk.inj (h.slot.symm.trans h'.slot)
  have hkey := h.faithful.encode_injective h'.faithful hbytes
  have hvalue := Except.ok.inj (h.result.symm.trans h'.result)
  dsimp only at hwindow hkey hvalue
  rw [hkey, hwindow, hvalue]

end Aggregate

namespace Job

open Operator

variable {κ ν α ω : Type} [Encoding κ] [Encoding α] [LawfulEncoding α] (job : Job κ ν α ω)
  {o : Operator κ α ω} {cause : Prop}

/-! ### Taking in a payload -/

omit [Encoding κ] in
theorem ensures_settle (key : Bytes) (candidate : Window) (ho : o.table.Readable)
    (herr : ∀ e, Ledger.settle job.policy.val job.aggregate key candidate o.table.contents =
      .error e → cause) :
    Ensures (job.settle key candidate) o cause fun w o' => ∃ (m : SessionMerge) (table : Table α),
      Ledger.settle job.policy.val job.aggregate key candidate o.table.contents =
        .ok (m, table.contents) ∧ table.Readable ∧ w = m.window ∧
      o' = { o with
        table
        agenda := m.retired.foldl (fun a w => (a.cancel ⟨key, w⟩).2) o.agenda } := by
  unfold Job.settle
  unfold Ledger.settle at herr ⊢
  by_cases hm : job.policy.val.merges
  · simp only [if_pos hm] at herr ⊢
    refine Ensures.bind (m := fun m o' => ∃ table : Table α, Ledger.mergeSession job.aggregate
        job.policy.val.firesAt key candidate o.table.contents = .ok (m, table.contents) ∧
        table.Readable ∧ o' = { o with table }) ?_ ?_
    · exact ensures_onTable (Table.refines_mergeSession _ _ key candidate) ho
        (fun m table hrun hread => ⟨table, hrun, hread, rfl⟩) herr
    · rintro m _ ⟨table, hrun, hread, rfl⟩
      exact ⟨m, table, hrun, hread, rfl, rfl⟩
  · simp only [if_neg hm]
    exact ⟨⟨candidate, []⟩, o.table, rfl, ho, rfl, rfl⟩

omit [Encoding κ] in
theorem ensures_accumulate (key : Bytes) (v : ν) (candidate : Window) (ho : o.table.Readable)
    (herr : ∀ e, Ledger.accumulate job.policy.val job.aggregate key v candidate o.table.contents =
      .error e → cause) :
    Ensures (job.accumulate key v candidate) o cause fun _ o' =>
      ∃ (m : SessionMerge) (table : Table α),
        Ledger.accumulate job.policy.val job.aggregate key v candidate o.table.contents =
          .ok (m, table.contents) ∧ table.Readable ∧
        o' = { o with
          table
          agenda := ((m.retired.foldl (fun a w => (a.cancel ⟨key, w⟩).2) o.agenda).register
            ⟨key, m.window⟩ (job.policy.val.firesAt m.window)).2 } := by
  unfold Ledger.accumulate at herr ⊢
  refine (job.ensures_settle key candidate ho fun e he => herr e ?_).bind ?_
  · rw [Ledger.run_bind, he]
  rintro _ _ ⟨m, table, hsettle, hread, rfl, rfl⟩
  have hadd : ∀ r, Ledger.add job.aggregate ⟨key, m.window⟩ (job.policy.val.firesAt m.window) v
        table.contents = r →
      (do
        let m ← Ledger.settle job.policy.val job.aggregate key candidate
        let _ ← Ledger.add job.aggregate ⟨key, m.window⟩ (job.policy.val.firesAt m.window) v
        return m : Ledger SessionMerge) o.table.contents = r.map fun q => (m, q.2) := by
    rintro _ rfl
    rw [Ledger.run_bind, hsettle]
    dsimp only
    rw [Ledger.run_bind]
    cases Ledger.add job.aggregate ⟨key, m.window⟩ (job.policy.val.firesAt m.window) v
      table.contents <;> rfl
  refine Ensures.bind (m := fun _ o' => ∃ (new : Bool) (table' : Table α), Ledger.add job.aggregate
      ⟨key, m.window⟩ (job.policy.val.firesAt m.window) v table.contents =
        .ok (new, table'.contents) ∧ table'.Readable ∧
      o' = { o with
        table := table'
        agenda := m.retired.foldl (fun a w => (a.cancel ⟨key, w⟩).2) o.agenda }) ?_ ?_
  · exact ensures_onTable (Table.refines_add _ _ _ v) hread
      (fun new table' hrun hread' => ⟨new, table', hrun, hread', rfl⟩)
      fun e he => herr e (hadd _ he)
  · rintro _ _ ⟨new, table', hrun, hread', rfl⟩
    exact ⟨m, table', hadd _ hrun, hread', rfl⟩

/-- Taking in a payload keeps an operator sound: the timers go where the entries go. -/
theorem ensures_accumulate_sound (h : o.Sound job.policy.val) {key : Bytes} (hkey : KeyOf κ key)
    (v : ν) {candidate : Window} (hc : job.policy.val.merges → candidate.Proper) {m : Merger}
    (hsettle : job.policy.val.settle (o.table.contents.live key) candidate = m)
    (hcause : ¬ job.aggregate.Total → cause) :
    Ensures (job.accumulate key v candidate) o cause fun _ o' =>
      o'.Sound job.policy.val ∧ o.Undisturbed o' ∧
      ∃ acc, job.aggregate.grow (o.table.contents.accs α key m.absorbed) v = .ok acc ∧
        job.policy.val.Grows key m acc o.entryAt o'.entryAt := by
  have hspec := Ledger.accumulate_spec h.cells hkey job.aggregate v hc hsettle
  refine (job.ensures_accumulate key v candidate h.readable fun e he => ?_).mono ?_
  · refine hcause fun ht => ?_
    obtain ⟨acc, hacc⟩ := ht.grow (o.table.contents.accs α key m.absorbed) v
    rw [hacc] at hspec
    obtain ⟨c', hrun, _⟩ := hspec
    rw [he] at hrun
    cases hrun
  · rintro _ _ ⟨merge, table, hrun, hread, rfl⟩
    cases hgrow : job.aggregate.grow (o.table.contents.accs α key m.absorbed) v with
    | error reason =>
      rw [hgrow] at hspec
      obtain ⟨w, hw⟩ := hspec
      rw [hrun] at hw
      cases hw
    | ok acc =>
      rw [hgrow] at hspec
      obtain ⟨c', hrun', hsound, hgrows⟩ := hspec
      rw [hrun] at hrun'
      obtain ⟨rfl, rfl⟩ := Prod.mk.inj (Except.ok.inj hrun')
      refine ⟨⟨hread, hsound, fun s => ?_⟩, ⟨?_, rfl, rfl, rfl, rfl, rfl⟩, acc, rfl, hgrows⟩
      · show (Agenda.register _ _ _).2.fireAt? s = (Cells.entryAt α table.contents s).map _
        rw [Agenda.fireAt?_register, Agenda.fireAt?_foldl_cancel, hgrows s, h.timely s, entryAt]
        by_cases hs : s = ⟨key, m.merged⟩
        · simp [hs]
        · have hmem : s.key = key ∧ s.window ∈ m.absorbed.filter (· ≠ m.merged) ↔
              s.key = key ∧ s.window ∈ m.absorbed := by
            refine and_congr_right fun hk => ?_
            have hw : s.window ≠ m.merged := fun hw => hs (by rw [← hk, ← hw])
            simp [hw]
          simp only [if_neg hs, if_neg (Ne.symm hs), hmem]
          split <;> rfl
      · exact (Agenda.progress_register _ _ _).trans (Agenda.progress_foldl_cancel _ _ _)

/-! ### Firing -/

theorem decodeKey_encode {k : κ} (h : Encoding.Faithful k) : decodeKey κ (encode k) = .ok k :=
  Encoding.decodeAs_encode h _

/-- A live slot that fires is emitted and retired. -/
theorem ensures_fire (ho : o.table.Readable)
    (hs : Cells.Sound κ α job.policy.val o.table.contents) {t : Timer} {x : Entry α}
    (hx : o.entryAt t.slot = some x)
    (hcause : ¬ (job.aggregate.Total ∧ o.collector.admission = .always) → cause) :
    Ensures (job.fire t) o cause fun _ o' => ∃ e : Emission κ ω,
      job.aggregate.Releases t.slot x e ∧ o'.table.Readable ∧
      o'.table.contents = o.table.contents.retire job.policy.val.merges t.slot ∧
      (o.collector.admission = .always → o'.collector.admission = .always) ∧
      o'.collector.items = o.collector.items ++ [e] ∧
      o' = { o with table := o'.table, collector := o'.collector } := by
  obtain ⟨k, hk, hkey⟩ := hs.key t.slot (by rw [← entryAt, hx]; rfl)
  have hlive : (o.table.contents.entryAt α t.slot).isSome := by rw [← entryAt, hx]; rfl
  have hfinish := Ledger.finish_eq job.aggregate t.slot o.table.contents
  rw [← entryAt, hx] at hfinish
  unfold Job.fire
  refine Ensures.bind (m := fun found o' => ∃ (value : ω) (table : Table α), found = some value ∧
      job.aggregate.result x.acc = .ok value ∧ table.Readable ∧
      table.contents = o.table.contents ∧ o' = { o with table }) ?_ ?_
  · refine ensures_onTable (Table.refines_finish job.aggregate t.slot) ho
      (fun found table hrun hread => ?_) fun e he => ?_
    · cases hvalue : job.aggregate.result x.acc with
      | error reason => simp [hrun, hvalue] at hfinish
      | ok value =>
        simp only [hrun, hvalue, Except.ok.injEq, Prod.mk.injEq] at hfinish
        exact ⟨value, table, hfinish.1, rfl, hread, hfinish.2, rfl⟩
    · refine hcause fun h => ?_
      obtain ⟨value, hvalue⟩ := h.1.result x.acc
      simp [he, hvalue] at hfinish
  rintro _ _ ⟨value, table, rfl, hvalue, hread, hcells, rfl⟩
  dsimp only
  have hdecode : (Command.ofExcept (decodeKey κ t.slot.key) : Command (Operator κ α ω) κ) =
      pure k := by rw [← hkey, decodeKey_encode hk]; rfl
  rw [hdecode, pure_bind]
  refine (ensures_emit (o := { o with table }) ⟨k, t.slot.window, value⟩
    fun h => hcause fun h' => h h'.2).bind ?_
  rintro _ o' ⟨hadm, hitems, ho'⟩
  have hdiscard := Ledger.discard_eq hs hlive
  rw [ho', onTable_ite, ← onTable_bind]
  refine ensures_onTable ((Table.refines_discard t.slot).bind fun _ => Table.refines_ite _
    (Table.refines_discardSession t.slot) (Table.refines_pure ())) hread
    (fun _ table' hrun hread' => ?_) fun e he => ?_
  · rw [hcells, hdiscard] at hrun
    exact ⟨⟨k, t.slot.window, value⟩, ⟨hk, by rw [hkey], hvalue⟩, hread',
      (Prod.mk.inj (Except.ok.inj hrun)).2.symm, hadm, hitems, rfl⟩
  · rw [hcells, hdiscard] at he
    cases he

end Job

namespace Operator

variable {κ ν α ω : Type} [Encoding κ] [Encoding α]

/-- The slots of `due` left and their results were emitted, one after another. -/
structure Retires (p : Policy) (g : Aggregate ν α ω) (due : List Timer) (o o' : Operator κ α ω) :
    Prop where
  readable : o'.table.Readable
  cells : Cells.Sound κ α p o'.table.contents
  entry : ∀ s, o'.entryAt s = if s ∈ due.map Timer.slot then none else o.entryAt s
  emitted : ∃ out, o'.collector.items = o.collector.items ++ out ∧
    List.Forall₂ (fun t e => ∃ x, o.entryAt t.slot = some x ∧ g.Releases t.slot x e) due out
  admission : o.collector.admission = .always → o'.collector.admission = .always
  rest : o' = { o with table := o'.table, collector := o'.collector }

/-- Progress goes to `p`; what it reaches leaves and is emitted, in the order of the agenda. -/
structure Reaches (g : Aggregate ν α ω) (p : Timestamp) (o o' : Operator κ α ω) : Prop where
  progress : o'.progress = p
  entry : ∀ s, o'.entryAt s = (o.entryAt s).filter (p < ·.fireAt)
  emitted : ∃ out, o'.collector.items = o.collector.items ++ out ∧
    List.Forall₂ (fun t e => ∃ x, o.entryAt t.slot = some x ∧ g.Releases t.slot x e)
      (o.agenda.advance p).1 out
  admission : o.collector.admission = .always → o'.collector.admission = .always
  drops : o'.drops = o.drops
  lastTick : o'.lastTick = o.lastTick
  forwarded : o'.forwarded = o.forwarded
  status : o'.status = o.status

variable {p : Policy} {q : Timestamp} {g : Aggregate ν α ω} {o o' : Operator κ α ω}

/-- The slots that come due are those whose entries fire by then. -/
theorem Sound.mem_due (h : o.Sound p) (hq : o.progress < q) {s : Slot} :
    s ∈ (o.agenda.advance q).1.map Timer.slot ↔ ∃ x, o.entryAt s = some x ∧ x.fireAt ≤ q := by
  rw [List.mem_map]
  constructor
  · rintro ⟨t, ht, rfl⟩
    obtain ⟨hfire, hle⟩ := (Agenda.mem_advance hq).1 ht
    rw [h.timely, Option.map_eq_some_iff] at hfire
    obtain ⟨x, hx, hxt⟩ := hfire
    exact ⟨x, hx, hxt ▸ hle⟩
  · rintro ⟨x, hx, hle⟩
    have hfire : o.agenda.fireAt? s = some x.fireAt := by rw [h.timely, hx]; rfl
    exact ⟨⟨s, x.fireAt⟩, (Agenda.mem_advance hq).2 ⟨hfire, hle⟩, rfl⟩

/-- When the slots that are due have left, the later entries remain. -/
theorem Sound.entryAt_of_due (h : o.Sound p) (hq : o.progress < q) (s : Slot) :
    (if s ∈ (o.agenda.advance q).1.map Timer.slot then none else o.entryAt s) =
      (o.entryAt s).filter (q < ·.fireAt) := by
  split
  · next hs =>
    obtain ⟨x, hx, hle⟩ := (h.mem_due hq).1 hs
    rw [hx, Option.filter_some, if_neg (by simpa using hle)]
  · next hs =>
    cases hx : o.entryAt s with
    | none => rfl
    | some x =>
      have hlt : q < x.fireAt := by
        rw [← Int64.not_le]
        exact fun hle => hs ((h.mem_due hq).2 ⟨x, hx, hle⟩)
      rw [Option.filter_some, if_pos (by simpa using hlt)]

/-- Progress is reached once the slots that are due have left. -/
theorem Sound.reaches (h : o.Sound p) (hq : o.progress < q) {table : Table α}
    (hcells : table.contents = o.table.contents)
    (hr : Retires p g (o.agenda.advance q).1
      { o with table, agenda := (o.agenda.advance q).2 } o') : o'.Sound p ∧ o.Reaches g q o' := by
  have hsame : ∀ s, Operator.entryAt { o with table, agenda := (o.agenda.advance q).2 } s =
      o.entryAt s := fun s => by rw [entryAt, entryAt, hcells]
  have hleft : ∀ s, o'.entryAt s = (o.entryAt s).filter (q < ·.fireAt) := fun s => by
    rw [hr.entry, hsame, h.entryAt_of_due hq]
  have hagenda : o'.agenda = (o.agenda.advance q).2 := by rw [hr.rest]
  obtain ⟨out, hitems, hout⟩ := hr.emitted
  refine ⟨⟨hr.readable, hr.cells, fun s => ?_⟩, ?_, hleft, ⟨out, hitems, ?_⟩, hr.admission, ?_, ?_,
    ?_, ?_⟩
  · rw [hagenda, hleft, Agenda.fireAt?_advance hq, h.timely]
    cases o.entryAt s with
    | none => rfl
    | some x => by_cases hx : q < x.fireAt <;> simp [hx, Option.filter_some]
  · rw [progress, hagenda]
    exact Agenda.progress_advance hq
  · simpa only [hsame] using hout
  all_goals rw [hr.rest]

end Operator

namespace Job

open Operator

variable {κ ν α ω : Type} [Encoding κ] [Encoding α] [LawfulEncoding α] (job : Job κ ν α ω)
  {o : Operator κ α ω} {cause : Prop}

/-- Firing slots one after another retires them all. -/
theorem ensures_forM_fire (ho : o.table.Readable)
    (hs : Cells.Sound κ α job.policy.val o.table.contents) {due : List Timer}
    (hdue : (due.map Timer.slot).Nodup) (hlive : ∀ t ∈ due, (o.entryAt t.slot).isSome)
    (hcause : ¬ (job.aggregate.Total ∧ o.collector.admission = .always) → cause) :
    Ensures (due.forM job.fire) o cause fun _ =>
      Retires job.policy.val job.aggregate due o := by
  refine ensures_forM (fun fore => Retires job.policy.val job.aggregate fore o) ?_
    ⟨ho, hs, by simp, ⟨[], by simp, .nil⟩, id, rfl⟩
  rintro fore t rest hl o' h
  -- the slot is not among those that fired before it
  have hnew : t.slot ∉ fore.map Timer.slot := by
    rw [hl, List.map_append, List.map_cons] at hdue
    intro hmem
    exact List.disjoint_of_nodup_append hdue hmem (by simp)
  obtain ⟨x, hx⟩ := Option.isSome_iff_exists.1 (hlive t (by simp [hl]))
  have hx' : o'.entryAt t.slot = some x := by rw [h.entry, if_neg hnew, hx]
  refine (job.ensures_fire h.readable h.cells hx'
    fun hn => hcause fun h' => hn ⟨h'.1, h.admission h'.2⟩).mono ?_
  rintro _ o'' ⟨e, he, hread, hcells, hadm, hitems, hrest⟩
  obtain ⟨out, hitems', hout⟩ := h.emitted
  refine ⟨hread, hcells ▸ h.cells.retire t.slot, fun s => ?_, ⟨out ++ [e], ?_, ?_⟩,
    hadm ∘ h.admission, ?_⟩
  · rw [entryAt, hcells, Cells.entryAt_retire, ← entryAt, h.entry]
    by_cases hst : t.slot = s
    · simp [hst]
    · simp [hst, Ne.symm hst]
  · rw [hitems, hitems', List.append_assoc]
  · exact List.rel_append hout (.cons ⟨x, hx, he⟩ .nil)
  · rw [hrest, h.rest]

/-- Reaching progress that is news fires everything due; reaching old progress does nothing. -/
theorem ensures_reach (h : o.Sound job.policy.val) (p : Timestamp)
    (hcause : ¬ (job.aggregate.Total ∧ o.collector.admission = .always) → cause) :
    Ensures (job.reach p) o cause fun _ o' => if o.progress < p then
      o'.Sound job.policy.val ∧ o.Reaches job.aggregate p o' else o' = o := by
  unfold Job.reach
  apply ensures_get
  by_cases hp : o.progress < p
  · simp only [if_pos hp]
    refine Ensures.bind (m := fun _ o' => ∃ table : Table α, table.Readable ∧
      table.contents = o.table.contents ∧ o' = { o with table }) ?_ ?_
    · refine ensures_onTable Table.refines_flush h.readable
        (fun _ table hrun hread => ⟨table, hread, ?_, rfl⟩) fun e he => by cases he
      exact (Prod.mk.inj (Except.ok.inj hrun)).2.symm
    rintro _ _ ⟨table, hread, hcells, rfl⟩
    refine ensures_get (ensures_set ?_)
    refine (job.ensures_forM_fire (o := { o with table, agenda := (o.agenda.advance p).2 }) hread
      (hcells ▸ h.cells) (o.agenda.nodup_advance p) (fun t ht => ?_) hcause).mono
      fun _ o' => h.reaches hp hcells
    obtain ⟨x, hx, _⟩ := (h.mem_due hp).1 (List.mem_map_of_mem ht)
    rw [entryAt, hcells, ← entryAt, hx]
    rfl
  · simp only [if_neg hp]
    exact rfl

end Job

end Tidemark
