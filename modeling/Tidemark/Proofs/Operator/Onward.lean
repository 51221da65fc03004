import Tidemark.Proofs.Operator.Refusals

/-! Progress and what waits for it. A call that is not a new start and does not set progress by hand
leads onward: progress does not fall back, and whatever is new, or was there when progress moved,
waits beyond progress. From this one relation the marks of every operator that a run reaches are
known. An operator that runs has met no refusal of its store or collector, so it is enough to know
them without refusals. -/

namespace Tidemark

namespace Policy

/-- A candidate grows to a window that fires no earlier. -/
theorem firesAt_le_settle (p : Policy) (live : List Window) {candidate : Window}
    (hc : candidate.Proper) :
    p.firesAt candidate ≤ p.firesAt (p.settle live candidate).merged := by
  unfold settle
  split
  · exact p.firesAt_mono hc (Window.proper_merged hc) (Window.spans_merged live candidate).2
  · exact Int64.le_refl _

end Policy

namespace Operator

variable {κ ν α ω β : Type} [Encoding κ] [Encoding α] {o o' o₁ o₂ o₃ : Operator κ α ω}
  {p : Policy} {q : Timestamp} {g : Aggregate ν α ω}

/-- No window waits that progress `q` reaches. -/
def NoneDue (q : Timestamp) (o : Operator κ α ω) : Prop := ∀ t ∈ o.agenda.queue, q < t.fireAt

/-- `o'` comes after `o`. -/
structure Onward (o o' : Operator κ α ω) : Prop where
  progress : o.progress ≤ o'.progress
  /-- What does not wait beyond progress was there before, at the same progress. -/
  timer : ∀ t ∈ o'.agenda.queue,
    o'.progress < t.fireAt ∨ t ∈ o.agenda.queue ∧ o'.progress = o.progress
  lastTick : o'.lastTick = o.lastTick ∨ o'.lastTick ≤ o'.progress

section

omit [Encoding κ] [Encoding α]

theorem onward_of_eq (hagenda : o'.agenda = o.agenda)
    (htick : o'.lastTick = o.lastTick ∨ o'.lastTick ≤ o'.progress) : o.Onward o' := by
  have hprogress : o'.progress = o.progress := congrArg Agenda.progress hagenda
  exact ⟨hprogress ▸ Int64.le_refl _, fun t ht => .inr ⟨hagenda ▸ ht, hprogress⟩, htick⟩

theorem onward_rfl : o.Onward o := onward_of_eq rfl (.inl rfl)

theorem Onward.trans (h : Onward o₁ o₂) (h' : Onward o₂ o₃) : Onward o₁ o₃ := by
  refine ⟨Int64.le_trans h.progress h'.progress, fun t ht => ?_, ?_⟩
  · rcases h'.timer t ht with hlt | ⟨ht₂, hsame'⟩
    · exact .inl hlt
    · rcases h.timer t ht₂ with hlt | ⟨ht₁, hsame⟩
      · exact .inl (hsame' ▸ hlt)
      · exact .inr ⟨ht₁, hsame'.trans hsame⟩
  · rcases h'.lastTick with hsame' | hle
    · refine h.lastTick.imp hsame'.trans fun hle => ?_
      rw [hsame']
      exact Int64.le_trans hle h'.progress
    · exact .inr hle

/-- Operators with the same timers and marks lead where these lead. -/
theorem Onward.congr (h : Onward o₁ o₂) (hfirst : SameClocks o₁ o) (hlast : SameClocks o₂ o') :
    Onward o o' := by
  refine ⟨?_, fun t ht => ?_, ?_⟩
  · rw [← hfirst.progress, ← hlast.progress]
    exact h.progress
  · rw [← hlast.progress, ← hfirst.progress, ← hfirst.agenda]
    exact h.timer t (hlast.agenda ▸ ht)
  · rw [← hlast.lastTick, ← hfirst.lastTick, ← hlast.progress]
    exact h.lastTick

/-- When everything waits beyond progress, it does so ever after. -/
theorem Onward.noneDue (h : o.Onward o') (hdue : o.NoneDue o.progress) : o'.NoneDue o'.progress := by
  intro t ht
  rcases h.timer t ht with hlt | ⟨ht', hsame⟩
  · exact hlt
  · exact hsame ▸ hdue t ht'

theorem Onward.lastTick_le (h : o.Onward o') (ht : o.lastTick ≤ o.progress) :
    o'.lastTick ≤ o'.progress := by
  rcases h.lastTick with hsame | hle
  · rw [hsame]
    exact Int64.le_trans ht h.progress
  · exact hle

end

/-- The timers that wait are those of the entries. -/
theorem Sound.mem_queue (h : o.Sound p) {t : Timer} :
    t ∈ o.agenda.queue ↔ ∃ x, o.entryAt t.slot = some x ∧ x.fireAt = t.fireAt := by
  rw [Agenda.mem_queue, h.timely, Option.map_eq_some_iff]

/-- They fire when their windows do. -/
theorem Sound.fireAt_eq (h : o.Sound p) {t : Timer} (ht : t ∈ o.agenda.queue) :
    t.fireAt = p.firesAt t.slot.window := by
  obtain ⟨x, hx, hfire⟩ := h.mem_queue.1 ht
  rw [← hfire, h.cells.fireAt t.slot x hx]

/-- Reaching progress leaves nothing that it reaches. -/
theorem Reaches.noneDue (h : o.Reaches g q o') (hs : o'.Sound p) : o'.NoneDue q := by
  intro t ht
  obtain ⟨x, hx, hfire⟩ := hs.mem_queue.1 ht
  rw [h.entry, Option.filter_eq_some_iff] at hx
  exact hfire ▸ by simpa using hx.2

theorem Reaches.onward (h : o.Reaches g q o') (hs : o'.Sound p) (hq : o.progress < q) :
    o.Onward o' := by
  refine ⟨?_, fun t ht => .inl ?_, .inl h.lastTick⟩
  · rw [h.progress]
    exact Int64.le_of_lt hq
  · rw [h.progress]
    exact h.noneDue hs t ht

omit [Encoding κ] [Encoding α] in
theorem Ensures.leads {c : Command (Operator κ α ω) β} {cause : Prop} {post : Operator κ α ω → Prop}
    {mild : Error → Operator κ α ω → Prop} (h : Ensures c o cause fun _ => post) :
    Command.Leads c o mild post := by
  unfold Ensures at h
  unfold Command.Leads
  cases hc : c o with
  | ok x o' =>
    rw [hc] at h
    exact h
  | error e o' =>
    rw [hc] at h
    exact .inl h.1

omit [Encoding κ] [Encoding α] in
/-- A call after which the operator runs has led where its step does. -/
theorem of_running_after {c : Command (Operator κ α ω) β} {P : Operator κ α ω → Prop}
    (hc : o.status = .running → Command.Leads c o (fun _ => P) P)
    (hrun : ((whileRunning c).after o).status = .running) : P ((whileRunning c).after o) := by
  refine @post_after_whileRunning κ α ω β o c (fun o' => o'.status = .running → P o')
    (fun h => ?_) (fun o' hfailed => by cases hfailed) (fun hidle h => absurd h hidle) hrun
  exact (hc h).mono (fun _ _ h _ => h) fun _ h _ => h

end Operator

/-- Neither a new start nor a change of progress by hand, and keys can be read back. -/
def Call.Forward {κ ν : Type} [Encoding κ] : Call κ ν → Prop
  | .input i => i.Plain
  | .restore _ => False
  | .rewind _ => False
  | _ => True

namespace Job

open Operator

variable {κ ν α ω : Type} [Encoding κ] [Encoding α] [LawfulEncoding α] (job : Job κ ν α ω)
  {o o' : Operator κ α ω}

/-- A payload goes into a window that fires no earlier than the candidate. -/
theorem ensures_accumulate_onward (h : o.Sound job.policy.val) {key : Bytes} (hkey : KeyOf κ key)
    (v : ν) {candidate : Window} (hc : candidate.Proper)
    (hlive : o.progress < job.policy.val.firesAt candidate) :
    Ensures (job.accumulate key v candidate) o True fun _ o' =>
      o'.Sound job.policy.val ∧ o.Undisturbed o' ∧ o.Onward o' := by
  refine (job.ensures_accumulate_sound h hkey v (fun _ => hc) rfl fun _ => trivial).mono ?_
  rintro _ o' ⟨hsound, hsame, acc, _, hgrows⟩
  refine ⟨hsound, hsame, ?_, fun t ht => ?_, .inl hsame.lastTick⟩
  · exact hsame.progress ▸ Int64.le_refl _
  · obtain ⟨x, hx, hfire⟩ := hsound.mem_queue.1 ht
    rw [hgrows t.slot] at hx
    split at hx
    · rw [← hfire, ← Option.some.inj hx, hsame.progress]
      exact .inl (Int64.lt_of_lt_of_le hlive (job.policy.val.firesAt_le_settle _ hc))
    · split at hx
      · cases hx
      · exact .inr ⟨h.mem_queue.2 ⟨x, hx, hfire⟩, hsame.progress⟩

theorem ensures_forM_accumulate_onward (h : o.Sound job.policy.val) {key : Bytes}
    (hkey : KeyOf κ key) (v : ν) {ws : List Window}
    (hws : ∀ w ∈ ws, w.Proper ∧ o.progress < job.policy.val.firesAt w) :
    Ensures (ws.forM (job.accumulate key v)) o True fun _ => o.Onward := by
  refine Ensures.mono (m := fun _ o' => o'.Sound job.policy.val ∧ o.Undisturbed o' ∧ o.Onward o')
    ?_ fun _ _ h => h.2.2
  refine ensures_forM (fun _ o' => o'.Sound job.policy.val ∧ o.Undisturbed o' ∧ o.Onward o') ?_
    ⟨h, undisturbed_rfl, onward_rfl⟩
  rintro fore w rest hl o' ⟨h', hsame, honward⟩
  obtain ⟨hw, hlive⟩ := hws w (by simp [hl])
  refine (job.ensures_accumulate_onward h' hkey v hw (hsame.progress ▸ hlive)).mono ?_
  rintro _ o'' ⟨h'', hsame', honward'⟩
  exact ⟨h'', hsame.trans hsame', honward.trans honward'⟩

theorem ensures_reach_onward (h : o.Sound job.policy.val) (q : Timestamp) :
    Ensures (job.reach q) o True fun _ o' => o.Onward o' ∧ q ≤ o'.progress := by
  refine (job.ensures_reach h q fun _ => trivial).mono fun _ o' ho' => ?_
  split at ho'
  · next hq => exact ⟨ho'.2.onward ho'.1 hq, ho'.2.progress ▸ Int64.le_refl _⟩
  · next hq =>
    rw [ho']
    exact ⟨onward_rfl, Int64.not_lt.1 hq⟩

theorem onward_feed (h : o.Safe job.policy.val) (now : Timestamp) {key : κ}
    (hkey : Encoding.Faithful key) (t : Timestamp) (v : ν)
    (hrun : ((job.feed now key t v).after o).status = .running) :
    o.Onward ((job.feed now key t v).after o) := by
  refine of_running_after (fun hrun => ?_) hrun
  dsimp only
  cases hw : job.policy.val.windowsAt (job.stamp now t) with
  | none => exact .inr onward_rfl
  | some around =>
    refine Command.leads_get ?_
    split
    · exact onward_of_eq rfl (.inl rfl)
    · have hproper := (Policy.windowsAt_spec job.policy.property hw).2
      refine (job.ensures_forM_accumulate_onward (h hrun) ⟨key, hkey, rfl⟩ v
        fun w hmem => ?_).leads.bind fun _ o' ho' => ho'
      obtain ⟨haround, hahead⟩ := job.mem_liveAt.1 hmem
      exact ⟨hproper w haround, hahead⟩

theorem onward_advance (h : o.Safe job.policy.val) (q : Timestamp)
    (hrun : ((job.advance q).after o).status = .running) : o.Onward ((job.advance q).after o) :=
  of_running_after
    (fun hrun => ((job.ensures_reach_onward (h hrun) q).mono fun _ _ h => h.1).leads) hrun

theorem onward_watermark (h : o.Safe job.policy.val) (w : Watermark)
    (hrun : ((job.watermark w).after o).status = .running) :
    o.Onward ((job.watermark w).after o) := by
  cases hdomain : job.settings.val.domain with
  | event =>
    rw [job.after_watermark hdomain] at hrun ⊢
    exact job.onward_advance h w.timestamp hrun
  | processing =>
    refine of_running_after (fun _ => Command.leads_get ?_) hrun
    simp only [hdomain]
    split
    · exact Command.leads_set (onward_of_eq rfl (.inl rfl))
    · exact onward_rfl

theorem onward_tick (h : o.Safe job.policy.val) (t : Timestamp)
    (hrun : ((job.tick t).after o).status = .running) : o.Onward ((job.tick t).after o) := by
  refine of_running_after (fun hrun => ?_) hrun
  cases job.settings.val.domain with
  | event => exact onward_rfl
  | processing =>
    refine Command.leads_get ?_
    split
    · have hsound : ({ o with lastTick := t } : Operator κ α ω).Sound job.policy.val :=
        (h hrun).of_eq rfl fun _ => rfl
      refine Command.leads_set ((job.ensures_reach_onward hsound t).mono ?_).leads
      rintro _ o' ⟨honward, ht⟩
      -- the callback that is noted now is not ahead of the progress that it moved
      refine ⟨honward.progress, honward.timer, .inr ?_⟩
      rcases honward.lastTick with hsame | hle
      · rw [hsame]
        exact ht
      · exact hle
    · exact onward_rfl

theorem onward_prepare (h : o.Safe job.policy.val)
    (hrun : ((prepare (ω := ω)).after o).status = .running) : o.Onward (prepare.after o) := by
  refine of_running_after (fun hrun => ?_) hrun
  refine Ensures.leads (?_ : Ensures _ o True _)
  exact ensures_onTable Table.refines_flush (h hrun).readable
    (fun _ _ _ _ => onward_of_eq rfl (.inl rfl)) fun _ _ => trivial

theorem onward_snapshot (h : o.Safe job.policy.val)
    (hrun : ((snapshot (ω := ω)).after o).status = .running) : o.Onward (snapshot.after o) := by
  refine of_running_after (fun hrun => ?_) hrun
  refine Ensures.leads (?_ : Ensures _ o True _)
  refine Ensures.bind (m := fun _ => o.Onward) ?_ ?_
  · exact ensures_onTable Table.refines_snapshot (h hrun).readable
      (fun _ _ _ _ => onward_of_eq rfl (.inl rfl)) fun _ _ => trivial
  · exact fun _ _ ho' => ho'

/-- A forward call after which the operator runs has led onward. -/
theorem onward_call {c : Call κ ν} (hc : c.Forward) (h : o.Safe job.policy.val)
    (hrun : ((job.call c).after o).status = .running) : o.Onward ((job.call c).after o) := by
  cases c with
  | input i =>
    cases i with
    | record now key t v =>
      rw [call, take, Command.after_map] at hrun ⊢
      exact job.onward_feed h now hc t v hrun
    | advance q =>
      rw [call, take, Command.after_map] at hrun ⊢
      exact job.onward_advance h q hrun
    | watermark w =>
      rw [call, take, Command.after_map] at hrun ⊢
      exact job.onward_watermark h w hrun
  | tick t =>
    rw [call, Command.after_map] at hrun ⊢
    exact job.onward_tick h t hrun
  | prepare =>
    rw [call, Command.after_map] at hrun ⊢
    exact job.onward_prepare h hrun
  | snapshot =>
    rw [call, Command.after_map] at hrun ⊢
    exact job.onward_snapshot h hrun
  | restore bs => exact hc.elim
  | rewind values => exact hc.elim
  | close =>
    rw [call, Command.after_map, status_after_close] at hrun
    cases hrun

/-- Starting over leads onward from the operator of which the image was taken. -/
theorem onward_restore {p : Policy} {d d' : Operator κ α ω} {bs : Bytes} (hd : d.Safe p)
    (hbs : d.snapshot = .ok bs d') (hlen : bs.length < 2 ^ 64) (h : o.Safe p)
    (hrun : ((Operator.restore bs).after o).status = .running) :
    d.Onward ((Operator.restore bs).after o) := by
  have hdrun : d.status = .running := running_of_ok hbs
  have horun : o.status = .running := by
    by_contra hidle
    unfold Operator.restore at hrun
    rw [after_whileRunning_of_ne _ hidle] at hrun
    exact hidle hrun
  obtain ⟨table, _, _, hsnap⟩ := exists_snapshot hdrun (hd hdrun).readable
  rw [hbs] at hsnap
  obtain ⟨rfl, _⟩ := EStateM.Result.ok.inj hsnap
  obtain ⟨table', agenda, _, _, hprogress, htimely, hrestore⟩ :=
    exists_restore horun (h horun).readable.faults (hd hdrun).cells rfl hlen
  have hagenda : agenda = d.agenda :=
    Agenda.eq_of_fireAt? hprogress fun s => (htimely s).trans ((hd hdrun).timely s).symm
  unfold Command.after
  rw [hrestore]
  exact onward_of_eq hagenda (.inl rfl)

end Job

theorem Call.Forward.plain {κ ν : Type} [Encoding κ] {c : Call κ ν} (h : c.Forward) : c.Plain := by
  cases c with
  | restore bs => exact h
  | rewind values => exact trivial
  | _ => exact h

/-! ### Runs -/

/-- The operator has met no refusal, and without refusals it is sound. -/
def Operator.Intact {κ α ω : Type} [Encoding κ] [Encoding α] (p : Policy) (o : Operator κ α ω) :
    Prop :=
  ∃ plan admission o₀, o₀.Sound p ∧ Unhindered plan admission o₀ o

namespace Job

open Operator

variable {κ ν α ω : Type} [Encoding κ] [Encoding α]

/-- The operators that runs of a job reach in which progress is set by hand as far as that is
`allowed`, whatever the store and the collector refuse. A run may start over from images of operators
that were reached in this way with the same policy and aggregate; images are byte strings of a length
below `2 ^ 64`. -/
inductive ReachedWithin (allowed : Operator κ α ω → Timestamp → Prop) :
    Job κ ν α ω → Operator κ α ω → Prop
  | start (job : Job κ ν α ω) (collector : Collector (Emission κ ω)) (faults : FaultPlan)
    (drains : List (DrainOrder α)) : job.ReachedWithin allowed (job.start collector faults drains)
  | forward {job : Job κ ν α ω} {o : Operator κ α ω} (c : Call κ ν) (hc : c.Forward)
    (h : job.ReachedWithin allowed o) : job.ReachedWithin allowed ((job.call c).after o)
  | rewind {job : Job κ ν α ω} {o : Operator κ α ω} (values : List Timestamp)
    (hvalues : o.status = .running → ∀ p, values.min? = some p → allowed o p)
    (h : job.ReachedWithin allowed o) :
    job.ReachedWithin allowed ((job.call (.rewind values)).after o)
  | restore {job donor : Job κ ν α ω} {o d d' : Operator κ α ω} {bs : Bytes}
    (hpolicy : donor.policy = job.policy) (haggregate : donor.aggregate = job.aggregate)
    (hd : donor.ReachedWithin allowed d) (hbs : d.snapshot = .ok bs d') (hlen : bs.length < 2 ^ 64)
    (h : job.ReachedWithin allowed o) : job.ReachedWithin allowed ((job.call (.restore bs)).after o)

omit [Encoding κ] [Encoding α] in
theorem noneDue_start (job : Job κ ν α ω) (collector : Collector (Emission κ ω))
    (faults : FaultPlan) (drains : List (DrainOrder α)) (q : Timestamp) :
    (job.start collector faults drains).NoneDue q := by
  intro t ht
  simp [start, Agenda.initial, Agenda.empty] at ht

variable [LawfulEncoding α] {allowed : Operator κ α ω → Timestamp → Prop} {job : Job κ ν α ω}
  {o : Operator κ α ω}

omit [LawfulEncoding α] in
theorem running_of_call {c : Call κ ν}
    (hrun : ((job.call c).after o).status = .running) : o.status = .running := by
  by_contra hidle
  exact (job.idle_call c hidle).2 hrun

omit [Encoding κ] [Encoding α] [LawfulEncoding α] in
/-- Setting progress by hand moves nothing else. -/
theorem after_rewind (hrun : o.status = .running) (values : List Timestamp) :
    (Operator.rewind values).after o =
      match values.min? with
      | none => o
      | some p => { o with agenda := o.agenda.rewind p } := by
  unfold Command.after Operator.rewind
  rw [whileRunning_eq _ hrun]
  cases values.min? <;> rfl

end Job

namespace Operator

variable {κ ν α ω : Type} [Encoding κ] [Encoding α] [LawfulEncoding α] {job : Job κ ν α ω}
  {o : Operator κ α ω}

omit [LawfulEncoding α] in
/-- Where nothing is refused from now on either, an operator that has met no refusal is sound. -/
theorem Intact.sound {p : Policy} (h : o.Intact p) (hfaults : o.table.store.faults = .none) :
    o.Sound p := by
  obtain ⟨_, _, o₀, hsound, h⟩ := h
  refine ⟨⟨hfaults, h.table.store.cells ▸ hsound.readable.entries⟩, h.contents ▸ hsound.cells,
    fun s => ?_⟩
  rw [h.agenda, hsound.timely, entryAt, entryAt, h.contents]

/-- After a plain call a running operator has still met no refusal. -/
theorem Intact.call (h : o.Intact job.policy.val) {c : Call κ ν} (hc : c.Plain)
    (hrun : ((job.call c).after o).status = .running) :
    ((job.call c).after o).Intact job.policy.val := by
  obtain ⟨plan, admission, o₀, hsound, h⟩ := h
  have hafter := job.unhindered_of_running h hrun
  have hsafe : ((job.call c).after o₀).Safe job.policy.val := Job.safe_call c hc fun _ => hsound
  exact ⟨plan, admission, _, hsafe (hafter.status.symm.trans hrun), hafter⟩

theorem Intact.onward (h : o.Intact job.policy.val) {c : Call κ ν} (hc : c.Forward)
    (hrun : ((job.call c).after o).status = .running) : o.Onward ((job.call c).after o) := by
  obtain ⟨plan, admission, o₀, hsound, h⟩ := h
  have hafter := job.unhindered_of_running h hrun
  have hon := job.onward_call hc (fun _ => hsound) (hafter.status.symm.trans hrun)
  exact hon.congr h.sameClocks hafter.sameClocks

/-- Starting over leads on from where the image was taken, and neither has met a refusal. -/
theorem Intact.restore {d d' : Operator κ α ω} {bs : Bytes} (h : o.Intact job.policy.val)
    (hd : d.Intact job.policy.val) (hbs : d.snapshot = .ok bs d') (hlen : bs.length < 2 ^ 64)
    (hrun : ((job.call (.restore bs)).after o).status = .running) :
    ((job.call (.restore bs)).after o).Intact job.policy.val ∧
      d.Onward ((job.call (.restore bs)).after o) := by
  obtain ⟨_, _, d₀, hdsound, hdsame⟩ := hd
  obtain ⟨d₀', hbs₀, _⟩ := job.performs_tracked.runs_snapshot.tracks.exists_ok hdsame hbs
  obtain ⟨plan, admission, o₀, hsound, h⟩ := h
  have hafter := job.unhindered_of_running h hrun
  have hrun₀ := hafter.status.symm.trans hrun
  rw [Job.call, Command.after_map] at hrun₀ hafter ⊢
  rw [Command.after_map] at hafter
  have hon := Job.onward_restore (fun _ => hdsound) hbs₀ hlen (fun _ => hsound) hrun₀
  have hsafe := Job.safe_restore (fun _ => hdsound) hbs₀ hlen fun _ => hsound
  exact ⟨⟨plan, admission, _, hsafe hrun₀, hafter⟩, hon.congr hdsame.sameClocks hafter.sameClocks⟩

end Operator

namespace Job

open Operator

variable {κ ν α ω : Type} [Encoding κ] [Encoding α] [LawfulEncoding α] {job : Job κ ν α ω}
  {allowed : Operator κ α ω → Timestamp → Prop} {o : Operator κ α ω}

/-- A running operator that was reached has met no refusal. -/
theorem ReachedWithin.intact (h : job.ReachedWithin allowed o) :
    o.status = .running → o.Intact job.policy.val := by
  induction h with
  | start job collector faults drains =>
    exact fun _ => ⟨_, _, _, job.sound_start { collector with admission := .always } drains,
      job.unhindered_start collector faults drains⟩
  | forward c hc _ ih => exact fun hrun => (ih (running_of_call hrun)).call hc.plain hrun
  | rewind values _ _ ih => exact fun hrun => (ih (running_of_call hrun)).call trivial hrun
  | restore hpolicy _ _ hbs hlen _ ihd ih =>
    exact fun hrun =>
      ((ih (running_of_call hrun)).restore (hpolicy ▸ ihd (running_of_ok hbs)) hbs hlen hrun).1

/-- What holds at the start, onward, and after progress was set as `allowed`, holds of every running
operator that was reached. -/
theorem ReachedWithin.invariant {I : Operator κ α ω → Prop}
    (hstart : ∀ (job : Job κ ν α ω) (collector : Collector (Emission κ ω)) (faults : FaultPlan)
      (drains : List (DrainOrder α)), I (job.start collector faults drains))
    (honward : ∀ o o', Onward o o' → I o → I o')
    (hset : ∀ o p, allowed o p → I { o with agenda := o.agenda.rewind p })
    (h : job.ReachedWithin allowed o) : o.status = .running → I o := by
  induction h with
  | start job collector faults drains => exact fun _ => hstart job collector faults drains
  | forward c hc hreached ih =>
    intro hrun
    have horun := running_of_call hrun
    exact honward _ _ ((hreached.intact horun).onward hc hrun) (ih horun)
  | @rewind job o values hvalues _ ih =>
    intro hrun
    have horun : o.status = .running := running_of_call hrun
    rw [call, Command.after_map, after_rewind horun]
    cases hmin : values.min? with
    | none => exact ih horun
    | some p => exact hset o p (hvalues horun p hmin)
  | restore hpolicy _ hd hbs hlen hreached ihd _ =>
    intro hrun
    have hdrun := running_of_ok hbs
    have hintact := hpolicy ▸ hd.intact hdrun
    exact honward _ _ ((hreached.intact (running_of_call hrun)).restore hintact hbs hlen hrun).2
      (ihd hdrun)

end Job

end Tidemark
