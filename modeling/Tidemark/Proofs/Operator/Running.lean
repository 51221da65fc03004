import Tidemark.Proofs.Operator.Steps
import Tidemark.Proofs.Window.Layout

/-! Whole calls of an operator. What a call does is said of a running operator that is sound; a call
that fails for good stops it. Every call keeps an operator safe: sound as long as it runs. -/

namespace Tidemark

/-- Why an operator refuses calls when it does not run. -/
def Status.refusal : Status → Error
  | closed => .closed
  | _ => .halted

namespace Operator

variable {κ ν α ω β : Type} {o : Operator κ α ω}

/-! ### Stopping -/

theorem whileRunning_eq (c : Command (Operator κ α ω) β) (h : o.status = .running) :
    whileRunning c o =
      match c o with
      | .ok x o' => .ok x o'
      | .error e o' => .error e (if e.isFatal then { o' with status := .failed } else o') := by
  cases hc : c o <;> simp [whileRunning, h, hc]

theorem whileRunning_of_ne (c : Command (Operator κ α ω) β) (h : o.status ≠ .running) :
    whileRunning c o = .error o.status.refusal o := by
  unfold whileRunning
  cases hs : o.status with
  | running => exact absurd hs h
  | failed => rfl
  | closed => rfl

theorem running_of_ok {c : Command (Operator κ α ω) β} {x : β} {o' : Operator κ α ω}
    (h : whileRunning c o = .ok x o') : o.status = .running := by
  by_contra hrun
  rw [whileRunning_of_ne c hrun] at h
  cases h

theorem step_of_ok {c : Command (Operator κ α ω) β} {x : β} {o' : Operator κ α ω}
    (h : whileRunning c o = .ok x o') : c o = .ok x o' := by
  rw [whileRunning_eq c (running_of_ok h)] at h
  cases hres : c o with
  | ok y o₁ =>
    rw [hres] at h
    exact h
  | error e o₁ =>
    rw [hres] at h
    cases h

/-- A call that fails stops the operator, or was refused to begin with, or failed as its step did. -/
theorem cases_of_error {c : Command (Operator κ α ω) β} {e : Error} {o' : Operator κ α ω}
    (h : whileRunning c o = .error e o') : o'.status = .failed ∨ o' = o ∨
      o.status = .running ∧ ¬ e.isFatal ∧ c o = .error e o' := by
  by_cases hrun : o.status = .running
  · rw [whileRunning_eq c hrun] at h
    cases hres : c o with
    | ok x o₁ =>
      rw [hres] at h
      cases h
    | error e₁ o₁ =>
      rw [hres] at h
      obtain ⟨rfl, rfl⟩ := EStateM.Result.error.inj h
      by_cases he : e₁.isFatal
      · rw [if_pos he]
        exact .inl rfl
      · rw [if_neg he]
        exact .inr (.inr ⟨hrun, he, rfl⟩)
  · rw [whileRunning_of_ne c hrun] at h
    exact .inr (.inl (EStateM.Result.error.inj h).2.symm)

theorem after_whileRunning_of_ne (c : Command (Operator κ α ω) β) (h : o.status ≠ .running) :
    (whileRunning c).after o = o := by
  rw [Command.after, whileRunning_of_ne c h]

/-- What a step leads to holds after the call, if it holds of every operator that has failed. -/
theorem post_after_whileRunning {c : Command (Operator κ α ω) β} {post : Operator κ α ω → Prop}
    (hstep : o.status = .running → Command.Leads c o (fun _ => post) post)
    (hfailed : ∀ o' : Operator κ α ω, post { o' with status := .failed })
    (hidle : o.status ≠ .running → post o) : post ((whileRunning c).after o) := by
  by_cases hrun : o.status = .running
  · have hlead := hstep hrun
    unfold Command.after
    rw [whileRunning_eq c hrun]
    unfold Command.Leads at hlead
    cases hres : c o with
    | ok x o' =>
      rw [hres] at hlead
      exact hlead
    | error e o' =>
      rw [hres] at hlead
      dsimp only
      split
      · exact hfailed o'
      · next hmild => exact hlead.resolve_left hmild
  · rw [after_whileRunning_of_ne c hrun]
    exact hidle hrun

theorem collector_after_whileRunning (c : Command (Operator κ α ω) β) (h : o.status = .running) :
    ((whileRunning c).after o).collector = (c.after o).collector := by
  unfold Command.after
  rw [whileRunning_eq c h]
  cases c o with
  | ok x o' => rfl
  | error e o' =>
    dsimp only
    split <;> rfl

variable [Encoding κ] [Encoding α] {p : Policy}

/-- As long as it runs, the operator is sound. -/
def Safe (p : Policy) (o : Operator κ α ω) : Prop := o.status = .running → o.Sound p

/-- A step leaves the operator safe, unless it fails for good. -/
def Spares (p : Policy) (c : Command (Operator κ α ω) β) (o : Operator κ α ω) : Prop :=
  match c o with
  | .ok _ o' => o'.Safe p
  | .error e o' => e.isFatal ∨ o'.Safe p

theorem Ensures.spares {c : Command (Operator κ α ω) β}
    (h : Ensures c o True fun _ o' => o'.Sound p) : Spares p c o := by
  unfold Ensures at h
  unfold Spares
  cases hc : c o with
  | ok x o' =>
    rw [hc] at h
    exact fun _ => h
  | error e o' =>
    rw [hc] at h
    exact .inl h.1

theorem Spares.leads {c : Command (Operator κ α ω) β} (h : Spares p c o) :
    Command.Leads c o (fun _ => Safe p) (Safe p) := by
  unfold Spares at h
  unfold Command.Leads
  cases hc : c o with
  | ok x o' =>
    rw [hc] at h
    exact h
  | error e o' =>
    rw [hc] at h
    exact h

theorem safe_after_whileRunning {c : Command (Operator κ α ω) β} (h : o.Safe p)
    (hc : o.Sound p → Spares p c o) : ((whileRunning c).after o).Safe p :=
  post_after_whileRunning (fun hrun => (hc (h hrun)).leads) (fun _ hrun => by cases hrun) fun _ => h

theorem Sound.retable (h : o.Sound p) {table : Table α} (hread : table.Readable)
    (hcells : table.contents = o.table.contents) : ({ o with table } : Operator κ α ω).Sound p :=
  ⟨hread, hcells ▸ h.cells, fun s => by rw [h.timely, entryAt, entryAt, hcells]⟩

/-- An operator is sound no less when only its counts and marks change. -/
theorem Sound.of_eq {o' : Operator κ α ω} (h : o.Sound p) (htable : o'.table = o.table)
    (hagenda : ∀ s, o'.agenda.fireAt? s = o.agenda.fireAt? s) : o'.Sound p :=
  ⟨htable ▸ h.readable, htable ▸ h.cells, fun s => by
    rw [hagenda, h.timely, entryAt, entryAt, htable]⟩

end Operator

/-! ### Records -/

namespace Job

open Operator

variable {κ ν α ω : Type} [Encoding κ] [Encoding α] (job : Job κ ν α ω) {o : Operator κ α ω}
  {cause : Prop}

/-- The windows of a record that have not fired. -/
def liveAt (o : Operator κ α ω) (around : List Window) : List Window :=
  around.filter (!job.policy.val.isLate · o.progress)

omit [Encoding κ] [Encoding α] in
theorem mem_liveAt {around : List Window} {w : Window} :
    w ∈ job.liveAt o around ↔ w ∈ around ∧ o.progress < job.policy.val.firesAt w := by
  simp only [liveAt, List.mem_filter, Policy.isLate, Bool.not_eq_true', decide_eq_false_iff_not,
    Int64.not_le]

omit [Encoding κ] [Encoding α] in
theorem liveAt_eq_nil {around : List Window} :
    job.liveAt o around = [] ↔ ∀ w ∈ around, job.policy.val.firesAt w ≤ o.progress := by
  rw [List.eq_nil_iff_forall_not_mem]
  refine forall_congr' fun w => ?_
  rw [mem_liveAt, not_and, Int64.not_lt]

/-- A record without representable windows is refused and changes nothing. -/
theorem feed_offTheLine (hrun : o.status = .running) {now t : Timestamp}
    (hw : job.policy.val.windowsAt (job.stamp now t) = none) (key : κ) (v : ν) :
    job.feed now key t v o = .error (.offTheLine (job.stamp now t)) o := by
  unfold Job.feed
  rw [whileRunning_eq _ hrun]
  simp only [hw]
  rfl

/-- A record whose windows have all fired is counted and changes nothing else. -/
theorem feed_late (hrun : o.status = .running) {now t : Timestamp} {around : List Window}
    (hw : job.policy.val.windowsAt (job.stamp now t) = some around)
    (hlate : job.liveAt o around = []) (key : κ) (v : ν) :
    job.feed now key t v o = .ok .dropped { o with drops := o.drops.mark now } := by
  unfold Job.feed
  rw [whileRunning_eq _ hrun]
  simp only [hw, Command.run_bind, Command.run_get]
  rw [← liveAt, hlate]
  rfl

/-- A record is added to each of its windows that has not fired. -/
theorem feed_live (hrun : o.status = .running) {now t : Timestamp} {around : List Window}
    (hw : job.policy.val.windowsAt (job.stamp now t) = some around)
    (hlive : job.liveAt o around ≠ []) (key : κ) (v : ν) :
    job.feed now key t v o =
      match (job.liveAt o around).forM (job.accumulate (encode key) v) o with
      | .ok _ o' => .ok .accepted o'
      | .error e o' => .error e (if e.isFatal then { o' with status := .failed } else o') := by
  unfold Job.feed
  rw [whileRunning_eq _ hrun]
  simp only [hw, Command.run_bind, Command.run_get]
  rw [← liveAt]
  cases hl : job.liveAt o around with
  | nil => exact absurd hl hlive
  | cons w ws =>
    simp only [Command.run_bind]
    cases (w :: ws).forM (job.accumulate (encode key) v) o <;> rfl

variable [LawfulEncoding α]

theorem ensures_forM_accumulate_sound (h : o.Sound job.policy.val) {key : Bytes}
    (hkey : KeyOf κ key) (v : ν) {ws : List Window}
    (hws : job.policy.val.merges → ∀ w ∈ ws, w.Proper) (hcause : ¬ job.aggregate.Total → cause) :
    Ensures (ws.forM (job.accumulate key v)) o cause fun _ o' =>
      o'.Sound job.policy.val ∧ o.Undisturbed o' := by
  refine ensures_forM (fun _ o' => o'.Sound job.policy.val ∧ o.Undisturbed o') ?_
    ⟨h, undisturbed_rfl⟩
  rintro fore w rest hl o' ⟨h', hsame⟩
  refine (job.ensures_accumulate_sound h' hkey v (fun hm => hws hm w (by simp [hl])) rfl
    hcause).mono ?_
  rintro _ o'' ⟨h'', hsame', _⟩
  exact ⟨h'', hsame.trans hsame'⟩

theorem safe_feed (h : o.Safe job.policy.val) (now : Timestamp) {key : κ}
    (hkey : Encoding.Faithful key) (t : Timestamp) (v : ν) :
    ((job.feed now key t v).after o).Safe job.policy.val := by
  by_cases hrun : o.status = .running
  · cases hw : job.policy.val.windowsAt (job.stamp now t) with
    | none =>
      unfold Command.after
      rw [job.feed_offTheLine hrun hw]
      exact h
    | some around =>
      by_cases hlive : job.liveAt o around = []
      · unfold Command.after
        rw [job.feed_late hrun hw hlive]
        exact fun _ => (h hrun).of_eq rfl fun _ => rfl
      · have hproper := (Policy.windowsAt_spec job.policy.property hw).2
        have hloop : Ensures ((job.liveAt o around).forM (job.accumulate (encode key) v)) o True
            fun _ o' => o'.Sound job.policy.val ∧ o.Undisturbed o' :=
          job.ensures_forM_accumulate_sound (h hrun) ⟨key, hkey, rfl⟩ v
            (fun _ w hm => hproper w (job.mem_liveAt.1 hm).1) fun _ => trivial
        unfold Ensures at hloop
        unfold Command.after
        rw [job.feed_live hrun hw hlive]
        cases hstep : (job.liveAt o around).forM (job.accumulate (encode key) v) o with
        | ok x o' =>
          rw [hstep] at hloop
          exact fun _ => hloop.1
        | error e o' =>
          rw [hstep] at hloop
          simp only [if_pos hloop.1]
          exact fun hstopped => by cases hstopped
  · unfold Job.feed
    rw [after_whileRunning_of_ne _ hrun]
    exact h

/-! ### Progress -/

theorem ensures_reach_sound (h : o.Sound job.policy.val) (p : Timestamp) :
    Ensures (job.reach p) o True fun _ o' => o'.Sound job.policy.val := by
  refine (job.ensures_reach h p fun _ => trivial).mono fun _ o' ho' => ?_
  split at ho'
  · exact ho'.1
  · exact ho' ▸ h

theorem safe_advance (h : o.Safe job.policy.val) (p : Timestamp) :
    ((job.advance p).after o).Safe job.policy.val :=
  safe_after_whileRunning h fun hs => (job.ensures_reach_sound hs p).spares

omit [LawfulEncoding α] in
theorem reach_of_le {p : Timestamp} (h : ¬ o.progress < p) : job.reach p o = .ok () o := by
  unfold Job.reach
  rw [Command.run_bind, Command.run_get]
  simp only [if_neg h]
  rfl

omit [LawfulEncoding α] in
/-- In event time a watermark is an announcement of progress. -/
theorem after_watermark (hdomain : job.settings.val.domain = .event) (w : Watermark) :
    (job.watermark w).after o = (job.advance w.timestamp).after o := by
  unfold Job.watermark Job.advance
  by_cases hrun : o.status = .running
  · unfold Command.after
    rw [whileRunning_eq _ hrun, whileRunning_eq _ hrun]
    simp only [hdomain, Command.run_bind, Command.run_get]
    by_cases hp : o.progress < w.timestamp
    · simp only [if_pos hp, Command.run_bind]
      cases job.reach w.timestamp o <;> rfl
    · simp only [if_neg hp, job.reach_of_le hp]
      rfl
  · rw [after_whileRunning_of_ne _ hrun, after_whileRunning_of_ne _ hrun]

theorem safe_watermark (h : o.Safe job.policy.val) (w : Watermark) :
    ((job.watermark w).after o).Safe job.policy.val := by
  cases hdomain : job.settings.val.domain with
  | event =>
    rw [job.after_watermark hdomain]
    exact job.safe_advance h w.timestamp
  | processing =>
    refine safe_after_whileRunning h fun hs => ?_
    refine Ensures.spares (ensures_get ?_)
    simp only [hdomain]
    split
    · apply ensures_set
      exact hs.of_eq rfl fun _ => rfl
    · exact hs

theorem safe_tick (h : o.Safe job.policy.val) (t : Timestamp) :
    ((job.tick t).after o).Safe job.policy.val := by
  refine safe_after_whileRunning h fun hs => ?_
  cases job.settings.val.domain with
  | event => exact fun _ => hs
  | processing =>
    refine Ensures.spares (ensures_get ?_)
    split
    · refine ensures_set (job.ensures_reach_sound ?_ t)
      exact hs.of_eq rfl fun _ => rfl
    · exact hs

end Job

section Pairing

variable {β γ : Type} {R : β → γ → Prop} {xs : List β} {ys : List γ}

theorem exists_mem_left (h : List.Forall₂ R xs ys) {y : γ} (hy : y ∈ ys) : ∃ x ∈ xs, R x y := by
  induction h with
  | nil => cases hy
  | cons hxy _ ih =>
    rcases List.mem_cons.1 hy with rfl | hy
    · exact ⟨_, by simp, hxy⟩
    · obtain ⟨x, hx, hrel⟩ := ih hy
      exact ⟨x, by simp [hx], hrel⟩

theorem exists_mem_right (h : List.Forall₂ R xs ys) {x : β} (hx : x ∈ xs) : ∃ y ∈ ys, R x y :=
  exists_mem_left h.flip hx

theorem map_eq_map {δ : Type} {f : β → δ} {g : γ → δ} (h : List.Forall₂ R xs ys)
    (hfg : ∀ x y, R x y → f x = g y) : xs.map f = ys.map g := by
  induction h with
  | nil => rfl
  | cons hxy _ ih => rw [List.map_cons, List.map_cons, ih, hfg _ _ hxy]

end Pairing

namespace Operator

variable {κ ν α ω : Type} [Encoding κ] [Encoding α] {g : Aggregate ν α ω} {o o' : Operator κ α ω}
  {p : Policy} {q : Timestamp}

/-- An advance emits the results of the entries that it reaches, each once. -/
theorem Reaches.exists_emitted (h : o.Sound p) (hq : o.progress < q) (hr : o.Reaches g q o') :
    ∃ out, o'.collector.items = o.collector.items ++ out ∧
      (out.map fun e => (e.key, e.window)).Nodup ∧
      ∀ e, e ∈ out ↔ ∃ x, o.entryAt ⟨encode e.key, e.window⟩ = some x ∧ x.fireAt ≤ q ∧
        g.Releases ⟨encode e.key, e.window⟩ x e := by
  obtain ⟨out, hitems, hout⟩ := hr.emitted
  refine ⟨out, hitems, ?_, fun e => ⟨fun he => ?_, ?_⟩⟩
  · have hslots : (o.agenda.advance q).1.map Timer.slot =
        out.map fun e => (⟨encode e.key, e.window⟩ : Slot) :=
      map_eq_map hout fun _ _ ⟨_, _, hrel⟩ => hrel.slot
    have hnodup := o.agenda.nodup_advance q
    rw [hslots] at hnodup
    apply List.Nodup.of_map fun kw : κ × Window => (⟨encode kw.1, kw.2⟩ : Slot)
    rw [List.map_map]
    exact hnodup
  · obtain ⟨t, ht, x, hx, hrel⟩ := exists_mem_left hout he
    obtain ⟨x', hx', hle⟩ := (h.mem_due hq).1 (List.mem_map_of_mem ht)
    obtain rfl := Option.some.inj (hx.symm.trans hx')
    rw [← hrel.slot]
    exact ⟨x, hx, hle, hrel⟩
  · rintro ⟨x, hx, hle, hrel⟩
    obtain ⟨t, ht, hslot⟩ := List.mem_map.1 ((h.mem_due hq).2 ⟨x, hx, hle⟩)
    obtain ⟨e', he', x', hx', hrel'⟩ := exists_mem_right hout ht
    rw [hslot] at hx' hrel'
    obtain rfl := Option.some.inj (hx.symm.trans hx')
    rwa [hrel.unique hrel']

end Operator

namespace Job

open Operator

variable {κ ν α ω : Type} [Encoding κ] [Encoding α] [LawfulEncoding α] (job : Job κ ν α ω)
  {o : Operator κ α ω}

/-- An announcement of progress is answered. -/
theorem exists_advance (ht : job.aggregate.Total) (hrun : o.status = .running)
    (h : o.Sound job.policy.val) (hopen : o.collector.admission = .always) (p : Timestamp) :
    ∃ o', job.advance p o = .ok () o' ∧ if o.progress < p then
      o'.Sound job.policy.val ∧ o.Reaches job.aggregate p o' else o' = o := by
  have hcause : ¬ (job.aggregate.Total ∧ o.collector.admission = .always) → False :=
    fun hn => hn ⟨ht, hopen⟩
  obtain ⟨⟨⟩, o', hreach, ho'⟩ := (job.ensures_reach h p hcause).exists_ok id
  refine ⟨o', ?_, ho'⟩
  unfold Job.advance
  rw [whileRunning_eq _ hrun, hreach]

end Job

namespace Operator

variable {κ ν α ω : Type} [Encoding κ] [Encoding α] [LawfulEncoding α] {o : Operator κ α ω}
  {p : Policy}

/-! ### Images -/

theorem safe_prepare (h : o.Safe p) : ((prepare (ω := ω)).after o).Safe p := by
  refine safe_after_whileRunning h fun hs => Ensures.spares ?_
  refine ensures_onTable Table.refines_flush hs.readable (fun _ table hrun hread => ?_)
    fun _ _ => trivial
  exact hs.retable hread (Prod.mk.inj (Except.ok.inj hrun)).2.symm

omit [LawfulEncoding α] in
theorem safe_rewind (h : o.Safe p) (values : List Timestamp) :
    ((rewind values).after o).Safe p := by
  refine safe_after_whileRunning h fun hs => ?_
  cases values.min? with
  | none => exact fun _ => hs
  | some p => exact fun _ => hs.of_eq rfl fun _ => rfl

omit [Encoding κ] [Encoding α] [LawfulEncoding α] in
theorem close_of_closed (h : o.status = .closed) : close o = .ok () o := by
  unfold close
  rw [Command.run_bind, Command.run_get]
  simp only [if_pos h]
  rfl

omit [Encoding κ] [Encoding α] [LawfulEncoding α] in
theorem close_of_ne (h : o.status ≠ .closed) : close o = .ok ()
    { o with
      table := { o.table with
        buffer := ∅, store := { o.table.store with cells := ∅, current := none } }
      agenda := o.agenda.clear
      status := .closed } := by
  unfold close
  rw [Command.run_bind, Command.run_get]
  simp only [if_neg h]
  rfl

omit [Encoding κ] [Encoding α] [LawfulEncoding α] in
theorem exists_close (h : o.status ≠ .closed) : ∃ table : Table α,
    close o = .ok () { o with table, agenda := o.agenda.clear, status := .closed } :=
  ⟨_, close_of_ne h⟩

omit [Encoding κ] [Encoding α] [LawfulEncoding α] in
theorem status_after_close (o : Operator κ α ω) : (close.after o).status = .closed := by
  unfold Command.after
  by_cases h : o.status = .closed
  · rw [close_of_closed h]
    exact h
  · obtain ⟨table, hclose⟩ := exists_close h
    rw [hclose]

omit [LawfulEncoding α] in
theorem safe_close (o : Operator κ α ω) (p : Policy) : (close.after o).Safe p := by
  intro hrun
  rw [status_after_close] at hrun
  cases hrun

omit [Encoding κ] [LawfulEncoding α] in
/-- A snapshot is the encoded form of an image. -/
theorem exists_image {bs : Bytes} {o' : Operator κ α ω} (h : snapshot o = .ok bs o') :
    ∃ state, bs = encode (⟨o'.progress, o'.lastTick, o'.forwarded, state⟩ : Image) := by
  obtain ⟨state, o₁, -, hencode⟩ := Command.ok_of_bind (step_of_ok h)
  obtain ⟨rfl, rfl⟩ := EStateM.Result.ok.inj hencode
  exact ⟨state, rfl⟩

omit [Encoding κ] in
/-- An image holds the marks and the contents. -/
theorem exists_snapshot (hrun : o.status = .running) (hread : o.table.Readable) :
    ∃ table : Table α, table.Readable ∧ table.contents = o.table.contents ∧
      snapshot o = .ok (encode (⟨o.progress, o.lastTick, o.forwarded,
        encode o.table.contents⟩ : Image)) { o with table } := by
  obtain ⟨table, hrunT, hread', hcells⟩ := onTable_eq Table.refines_snapshot hread
  refine ⟨table, hread', hcells, ?_⟩
  unfold snapshot
  rw [whileRunning_eq _ hrun, Command.run_bind, hrunT]
  rfl

theorem safe_snapshot (h : o.Safe p) : (snapshot.after o).Safe p := by
  by_cases hrun : o.status = .running
  · obtain ⟨table, hread, hcells, hsnap⟩ := exists_snapshot hrun (h hrun).readable
    unfold Command.after
    rw [hsnap]
    exact fun _ => (h hrun).retable hread hcells
  · unfold snapshot
    rw [after_whileRunning_of_ne _ hrun]
    exact h

/-- Starting over from an image of sound cells gives a sound operator with the marks of the image.
What the operator held before does not matter. -/
theorem exists_restore (hrun : o.status = .running) (hfaults : o.table.store.faults = .none)
    {cells : Cells} (hcells : Cells.Sound κ α p cells) {i : Image} (hstate : i.state = encode cells)
    (hlen : (encode i).length < 2 ^ 64) :
    ∃ (table : Table α) (agenda : Agenda), table.Readable ∧ table.contents = cells ∧
      agenda.progress = i.progress ∧
      (∀ s, agenda.fireAt? s = (cells.entryAt α s).map Entry.fireAt) ∧
      restore (encode i) o =
        .ok () { o with table, agenda, lastTick := i.lastTick, forwarded := i.forwarded } := by
  have hparse : Image.parse (encode i) = .ok i := Encoding.decodeAs_encode
    (Encoding.faithful_image (Nat.lt_of_le_of_lt (Encoding.length_state_le i) hlen)) _
  have hdecode : decode Cells i.state = .ok cells := by
    rw [hstate]
    refine (Encoding.faithful_cells ?_).decode_encode
    exact hstate ▸ Nat.lt_of_le_of_lt (Encoding.length_state_le i) hlen
  obtain ⟨l, hl, hmem⟩ := hcells.exists_listing
  have hrestore : onTable (Table.restore i.state) o = .ok ()
      { o with table := { o.table with buffer := ∅ }.storing cells o.table.store.current } := by
    rw [run_onTable, Table.restore_eq hfaults, hdecode]
  obtain ⟨table, hset, hentries⟩ := Table.exists_entries
    (t := ({ o.table with buffer := ∅ } : Table α).storing cells o.table.store.current) hfaults
  have hcontents : (({ o.table with buffer := ∅ } : Table α).storing cells
    o.table.store.current).contents = cells := rfl
  rw [hcontents] at hset hentries
  rw [hl] at hentries
  have hlist : onTable Table.entries ({ o with
      table := { o.table with buffer := ∅ }.storing cells o.table.store.current
      agenda := .initial } : Operator κ α ω) = .ok l { o with table, agenda := .initial } := by
    rw [run_onTable]
    dsimp only
    rw [hentries]
  refine ⟨table, (Agenda.ofEntries l).rewind i.progress,
    ⟨hset.faults, hset.cells ▸ hcells.tidy.readable⟩, hset.contents, rfl,
    fun s => Agenda.fireAt?_ofEntries hmem s, ?_⟩
  unfold restore
  rw [whileRunning_eq _ hrun]
  simp only [Command.run_bind, hparse, Command.ofExcept, hrestore, Command.run_modify, hlist]

end Operator

namespace Job

open Operator

variable {κ ν α ω : Type} [Encoding κ] [Encoding α] (job : Job κ ν α ω)

/-- A call of an operator that does not run emits nothing, and leaves it so. -/
theorem idle_call (c : Call κ ν) {o : Operator κ α ω} (h : o.status ≠ .running) :
    ((job.call c).after o).collector = o.collector ∧ ((job.call c).after o).status ≠ .running := by
  have hstay : ∀ {β γ : Type} (f : β → γ) (d : Command (Operator κ α ω) β),
      ((f <$> whileRunning d).after o).collector = o.collector ∧
        ((f <$> whileRunning d).after o).status ≠ .running := by
    intro β γ f d
    rw [Command.after_map, after_whileRunning_of_ne d h]
    exact ⟨rfl, h⟩
  cases c with
  | input i =>
    cases i with
    | record now key t v => exact hstay _ _
    | advance q => exact hstay _ _
    | watermark w => exact hstay _ _
  | tick t => exact hstay _ _
  | prepare => exact hstay _ _
  | snapshot => exact hstay _ _
  | restore bs => exact hstay _ _
  | rewind values => exact hstay _ _
  | close =>
    rw [call, Command.after_map]
    refine ⟨?_, by simp [status_after_close]⟩
    rw [Command.after]
    by_cases hclosed : o.status = .closed
    · rw [close_of_closed hclosed]
    · rw [close_of_ne hclosed]

end Job

end Tidemark
