import Tidemark.Proofs.Operator.Onward

/-! The order of everything that a run emits. Whatever a call emits comes due with it, in the order
of the agenda, and what waits afterwards comes due later. So the results of a whole run ascend in
the order of their timers, over all calls, and no window of a key is emitted twice. -/

namespace Tidemark

open Command

namespace Emission

variable {κ ω : Type} [Encoding κ]

def slot (e : Emission κ ω) : Slot := ⟨encode e.key, e.window⟩

/-- The timer that a result waited for. -/
def timer (p : Policy) (e : Emission κ ω) : Timer := ⟨e.slot, p.firesAt e.window⟩

end Emission

namespace Operator

variable {κ ν α ω β γ : Type} [Encoding κ] [Encoding α] {o o' : Operator κ α ω} {p : Policy}
  {q : Timestamp}

/-! ### Handing over -/

/-- The results that `c` emits, whether it answers or fails, are results of the slots `l`, in their
order. -/
def Hands (l : List Slot) (c : Command (Operator κ α ω) β) (o : Operator κ α ω) : Prop :=
  ∃ out, (c.after o).collector.items = o.collector.items ++ out ∧
    (out.map Emission.slot).Sublist l

section

omit [Encoding α]

variable {c : Command (Operator κ α ω) β} {k : β → Command (Operator κ α ω) γ}
  {l m : List Slot}

theorem hands_of_eq (h : (c.after o).collector = o.collector) : Hands l c o :=
  ⟨[], by rw [h, List.append_nil], List.nil_sublist _⟩

theorem Hands.bind (hc : Hands l c o) (hk : ∀ x o', c o = .ok x o' → Hands m (k x) o') :
    Hands (l ++ m) (c >>= k) o := by
  obtain ⟨out, hitems, hout⟩ := hc
  unfold Hands
  rw [after_bind]
  unfold Command.after at hitems
  cases hrun : c o with
  | ok x o₁ =>
    obtain ⟨out', hitems', hout'⟩ := hk x o₁ hrun
    rw [hrun] at hitems
    refine ⟨out ++ out', ?_, ?_⟩
    · apply hitems'.trans
      rw [← List.append_assoc]
      exact congrArg (· ++ out') hitems
    · rw [List.map_append]
      exact hout.append hout'
  | error e o₁ =>
    rw [hrun] at hitems
    exact ⟨out, hitems, hout.trans (List.sublist_append_left l m)⟩

theorem Hands.mono (h : Hands l c o) (hsub : l.Sublist m) : Hands m c o := by
  obtain ⟨out, hitems, hout⟩ := h
  exact ⟨out, hitems, hout.trans hsub⟩

theorem Hands.map (h : Hands l c o) (f : β → γ) : Hands l (f <$> c) o := by
  unfold Hands
  rw [Command.after_map]
  exact h

theorem hands_get {k : Operator κ α ω → Command (Operator κ α ω) γ} (h : Hands l (k o) o) :
    Hands l (get >>= k) o := h

theorem hands_set {k : PUnit → Command (Operator κ α ω) γ} (h : Hands l (k ⟨⟩) o')
    (hsame : o'.collector = o.collector) : Hands l (set o' >>= k) o := by
  obtain ⟨out, hitems, hout⟩ := h
  exact ⟨out, hsame ▸ hitems, hout⟩

theorem hands_onTable (d : Command (Table α) β) : Hands l (onTable d) o := by
  refine hands_of_eq ?_
  unfold Command.after
  rw [run_onTable]
  cases d o.table <;> rfl

omit [Encoding κ] in
theorem eq_of_onTable {d : Command (Table α) β} {x : β} (h : onTable d o = .ok x o') :
    o' = { o with table := o'.table } := by
  rw [run_onTable] at h
  cases hrun : d o.table with
  | ok y table =>
    rw [hrun] at h
    rw [← (EStateM.Result.ok.inj h).2]
  | error e table =>
    rw [hrun] at h
    cases h

theorem hands_emit (e : Emission κ ω) : Hands [e.slot] (emit e) o := by
  obtain ⟨table, agenda, drops, lastTick, forwarded, status, ⟨admission, items⟩⟩ := o
  cases admission with
  | always => exact ⟨[e], rfl, .refl _⟩
  | receiverGone => exact hands_of_eq rfl
  | quota left =>
    cases left with
    | zero => exact hands_of_eq rfl
    | succ left => exact ⟨[e], rfl, .refl _⟩

theorem hands_whileRunning (hrun : o.status = .running) (h : Hands l c o) :
    Hands l (whileRunning c) o := by
  obtain ⟨out, hitems, hout⟩ := h
  exact ⟨out, by rw [collector_after_whileRunning c hrun, hitems], hout⟩

end

end Operator

namespace Job

open Operator

variable {κ ν α ω : Type} [Encoding κ] [Encoding α] (job : Job κ ν α ω) {o : Operator κ α ω}

theorem hands_accumulate (key : Bytes) (v : ν) (w : Window) : Hands [] (job.accumulate key v w) o := by
  have hsettle : Hands [] (job.settle key w) o := by
    unfold Job.settle
    split
    · exact (hands_onTable (l := []) _).bind fun _ _ _ => hands_of_eq (l := []) rfl
    · exact hands_of_eq rfl
  exact hsettle.bind fun _ _ _ => (hands_onTable (l := []) _).bind fun _ _ _ => hands_of_eq rfl

theorem hands_forM_accumulate (key : Bytes) (v : ν) (ws : List Window) (o : Operator κ α ω) :
    Hands [] (ws.forM (job.accumulate key v)) o := by
  induction ws generalizing o with
  | nil => exact hands_of_eq rfl
  | cons w ws ih => exact (job.hands_accumulate key v w).bind fun _ o' _ => ih o'

/-- A slot whose key can be read is emitted as what it is. -/
theorem hands_fire {t : Timer} (hkey : KeyOf κ t.slot.key) : Hands [t.slot] (job.fire t) o := by
  obtain ⟨k, hk, hkey⟩ := hkey
  have hlast : ∀ {due : List Slot} {o : Operator κ α ω}, Hands due (do
      onTable (Table.discard t.slot)
      if job.policy.val.merges then onTable (Table.discardSession t.slot)) o := by
    intro due o
    refine (hands_onTable (l := []) _).bind fun _ _ _ => ?_
    split
    · exact hands_onTable _
    · exact hands_of_eq rfl
  unfold Job.fire
  refine (hands_onTable (l := []) _).bind fun found o₁ _ => ?_
  cases found with
  | none => exact hlast
  | some value =>
    have hdecode : (Command.ofExcept (decodeKey κ t.slot.key) : Command (Operator κ α ω) κ) =
        pure k := by rw [← hkey, decodeKey_encode hk]; rfl
    have hemit := hands_emit (o := o₁) ⟨k, t.slot.window, value⟩
    rw [Emission.slot, hkey] at hemit
    dsimp only
    rw [hdecode, pure_bind]
    exact hemit.bind (m := []) fun _ _ _ => hlast

theorem hands_forM_fire {due : List Timer} (hkeys : ∀ t ∈ due, KeyOf κ t.slot.key)
    (o : Operator κ α ω) : Hands (due.map Timer.slot) (due.forM job.fire) o := by
  induction due generalizing o with
  | nil => exact hands_of_eq rfl
  | cons t due ih =>
    have hrest := fun o => ih (fun u hu => hkeys u (by simp [hu])) o
    exact (job.hands_fire (hkeys t (by simp))).bind fun _ o' _ => hrest o'

/-- Reaching progress emits results of what comes due with it. -/
theorem hands_reach (h : o.Sound job.policy.val) (q : Timestamp) :
    Hands ((o.agenda.advance q).1.map Timer.slot) (job.reach q) o := by
  by_cases hq : o.progress < q
  · have hkeys : ∀ t ∈ (o.agenda.advance q).1, KeyOf κ t.slot.key := by
      intro t ht
      obtain ⟨x, hx, _⟩ := (h.mem_due hq).1 (List.mem_map_of_mem ht)
      exact h.cells.key t.slot (by rw [← entryAt, hx]; rfl)
    unfold Job.reach
    refine hands_get ?_
    simp only [if_pos hq]
    refine (hands_onTable (l := []) _).bind fun _ o₁ hflush => ?_
    have hagenda : o₁.agenda = o.agenda := by rw [eq_of_onTable hflush]
    refine hands_get ?_
    rw [hagenda]
    exact hands_set (job.hands_forM_fire hkeys _) rfl
  · have hsame := job.reach_of_le hq
    exact hands_of_eq (by rw [Command.after, hsame])

end Job

namespace Operator

variable {κ ν α ω : Type} [Encoding κ] [Encoding α] {o : Operator κ α ω} {p : Policy}

/-- Results of due slots in order are results of due timers in order. -/
theorem Sound.sublist_timers (h : o.Sound p) {out : List (Emission κ ω)} {due : List Timer}
    (hdue : ∀ t ∈ due, t ∈ o.agenda.queue)
    (hout : (out.map Emission.slot).Sublist (due.map Timer.slot)) :
    (out.map (Emission.timer p)).Sublist due := by
  have htimers := hout.map fun s : Slot => (⟨s, p.firesAt s.window⟩ : Timer)
  have hsame : (due.map Timer.slot).map (fun s => (⟨s, p.firesAt s.window⟩ : Timer)) = due := by
    rw [List.map_map]
    refine (List.map_congr_left fun t ht => ?_).trans (List.map_id' due)
    show (⟨t.slot, p.firesAt t.slot.window⟩ : Timer) = t
    rw [← h.fireAt_eq (hdue t ht)]
  rw [hsame, List.map_map] at htimers
  exact htimers

/-- What was emitted ascends in firing order and was passed by progress, and what waits does not
come before progress. -/
structure Ordered (p : Policy) (o : Operator κ α ω) : Prop where
  ascending : (o.collector.items.map (Emission.timer p)).Pairwise fun t u => compare t u = .lt
  passed : o.status = .running → ∀ e ∈ o.collector.items, p.firesAt e.window ≤ o.progress
  ahead : o.status = .running → o.NoneDue o.progress

end Operator

/-! ### Calls and runs -/

namespace Job

open Operator

variable {κ ν α ω : Type} [Encoding κ] [Encoding α] [LawfulEncoding α] (job : Job κ ν α ω)
  {o : Operator κ α ω}

omit [LawfulEncoding α] in
theorem hands_feed (hrun : o.status = .running) (now : Timestamp) (key : κ) (t : Timestamp)
    (v : ν) : Hands [] (job.feed now key t v) o := by
  refine hands_whileRunning hrun ?_
  dsimp only
  cases job.policy.val.windowsAt (job.stamp now t) with
  | none => exact hands_of_eq rfl
  | some around =>
    refine hands_get ?_
    split
    · exact hands_of_eq rfl
    · exact (job.hands_forM_accumulate _ v _ o).bind fun _ _ _ => hands_of_eq (l := []) rfl

/-- `c` emits results of what comes due with some progress, which is then reached. -/
def Discharges {β : Type} (c : Command (Operator κ α ω) β) (o : Operator κ α ω) : Prop :=
  ∃ q, Hands ((o.agenda.advance q).1.map Timer.slot) c o ∧
    ((c.after o).status = .running → q ≤ (c.after o).progress)

omit [Encoding α] [LawfulEncoding α] in
theorem discharges_of_hands_nil {β : Type} {c : Command (Operator κ α ω) β} (h : Hands [] c o)
    (hprogress : (c.after o).status = .running → o.progress ≤ (c.after o).progress) :
    Discharges c o :=
  ⟨o.progress, h.mono (List.nil_sublist _), hprogress⟩

theorem discharges_advance (h : o.Safe job.policy.val) (hrun : o.status = .running)
    (q : Timestamp) : Discharges (job.advance q) o := by
  have hreach : Ensures (job.reach q) o True fun _ o' => q ≤ o'.progress :=
    (job.ensures_reach_onward (h hrun) q).mono fun _ _ h => h.2
  exact ⟨q, hands_whileRunning hrun (job.hands_reach (h hrun) q),
    of_running_after fun _ => hreach.leads⟩

theorem discharges_watermark (h : o.Safe job.policy.val) (hrun : o.status = .running)
    (w : Watermark) : Discharges (job.watermark w) o := by
  cases hdomain : job.settings.val.domain with
  | event =>
    have hboth := job.discharges_advance h hrun w.timestamp
    unfold Discharges Hands at hboth ⊢
    rwa [job.after_watermark hdomain]
  | processing =>
    refine discharges_of_hands_nil (hands_whileRunning hrun (hands_get ?_))
      fun hrun' => (job.onward_watermark h w hrun').progress
    simp only [hdomain]
    split
    · exact hands_set (hands_of_eq rfl) rfl
    · exact hands_of_eq rfl

theorem discharges_tick (h : o.Safe job.policy.val) (hrun : o.status = .running)
    (t : Timestamp) : Discharges (job.tick t) o := by
  have hnoted : ({ o with lastTick := t } : Operator κ α ω).Sound job.policy.val :=
    (h hrun).of_eq rfl fun _ => rfl
  by_cases hnews : job.settings.val.domain = .processing ∧ o.lastTick < t
  · refine ⟨t, hands_whileRunning hrun ?_,
      of_running_after (P := fun o' => t ≤ o'.progress) fun _ => ?_⟩
    · simp only [hnews.1]
      refine hands_get ?_
      rw [if_pos hnews.2]
      exact hands_set (job.hands_reach hnoted t) rfl
    · simp only [hnews.1]
      refine leads_get ?_
      rw [if_pos hnews.2]
      exact leads_set ((job.ensures_reach_onward hnoted t).mono fun _ _ h => h.2).leads
  · refine discharges_of_hands_nil (hands_whileRunning hrun ?_)
      fun hrun' => (job.onward_tick h t hrun').progress
    cases hdomain : job.settings.val.domain with
    | event => exact hands_of_eq rfl
    | processing =>
      refine hands_get ?_
      rw [if_neg fun hlt => hnews ⟨hdomain, hlt⟩]
      exact hands_of_eq rfl

theorem discharges_call {c : Call κ ν} (hc : c.Forward) (h : o.Safe job.policy.val)
    (hrun : o.status = .running) : Discharges (job.call c) o := by
  have hmap : ∀ {β γ : Type} {c : Command (Operator κ α ω) β}, Discharges c o → ∀ f : β → γ,
      Discharges (f <$> c) o := by
    rintro β γ c ⟨q, hhands, hprogress⟩ f
    refine ⟨q, hhands.map f, ?_⟩
    rwa [Command.after_map]
  have hsilent : Hands [] (job.call c) o → Discharges (job.call c) o := fun hnone =>
    discharges_of_hands_nil hnone fun hrun' => (job.onward_call hc h hrun').progress
  cases c with
  | input i =>
    cases i with
    | record now key t v => exact hsilent ((job.hands_feed hrun now key t v).map _)
    | advance q => exact hmap (job.discharges_advance h hrun q) _
    | watermark w => exact hmap (job.discharges_watermark h hrun w) _
  | tick t => exact hmap (job.discharges_tick h hrun t) _
  | prepare => exact hsilent ((hands_whileRunning hrun (hands_onTable _)).map _)
  | snapshot =>
    refine hsilent ((hands_whileRunning hrun ?_).map _)
    exact (hands_onTable (l := []) _).bind fun _ _ _ => hands_of_eq (l := []) rfl
  | restore bs => exact hc.elim
  | rewind values => exact hc.elim
  | close =>
    refine hsilent (Hands.map (hands_of_eq ?_) _)
    unfold Command.after
    rw [close_of_ne (by simp [hrun])]

/-- A forward call keeps what was emitted in order. -/
theorem ordered_call {c : Call κ ν} (hc : c.Forward) (hsafe : o.Safe job.policy.val)
    (h : o.Ordered job.policy.val) : ((job.call c).after o).Ordered job.policy.val := by
  by_cases hrun : o.status = .running
  · obtain ⟨q, ⟨out, hitems, hout⟩, hprogress⟩ := job.discharges_call hc hsafe hrun
    have htimers := (hsafe hrun).sublist_timers
      (fun t ht => (Agenda.mem_queue_of_mem_advance ht).1) hout
    have hdue : ∀ e ∈ out, o.progress < job.policy.val.firesAt e.window ∧
        job.policy.val.firesAt e.window ≤ q := by
      intro e he
      have ht := htimers.subset (List.mem_map_of_mem he)
      obtain ⟨hqueue, hle⟩ := Agenda.mem_queue_of_mem_advance ht
      exact ⟨h.ahead hrun (e.timer job.policy.val) hqueue, hle⟩
    refine ⟨?_, fun hrun' e he => ?_, fun hrun' => ?_⟩
    · rw [hitems, List.map_append, List.pairwise_append]
      refine ⟨h.ascending, (o.agenda.pairwise_advance q).sublist htimers, fun t ht u hu => ?_⟩
      obtain ⟨e, he, rfl⟩ := List.mem_map.1 ht
      obtain ⟨e', he', rfl⟩ := List.mem_map.1 hu
      exact Timer.lt_of_fireAt_lt (Int64.lt_of_le_of_lt (h.passed hrun e he) (hdue e' he').1)
    · rw [hitems] at he
      rcases List.mem_append.1 he with he | he
      · exact Int64.le_trans (h.passed hrun e he) (job.onward_call hc hsafe hrun').progress
      · exact Int64.le_trans (hdue e he).2 (hprogress hrun')
    · exact (job.onward_call hc hsafe hrun').noneDue (h.ahead hrun)
  · obtain ⟨hcollector, hidle⟩ := job.idle_call c hrun
    refine ⟨?_, fun hrun' => absurd hrun' hidle, fun hrun' => absurd hrun' hidle⟩
    rw [hcollector]
    exact h.ascending

theorem ordered_through {calls : List (Call κ ν)} (hcalls : ∀ c ∈ calls, c.Forward)
    (hsafe : o.Safe job.policy.val) (h : o.Ordered job.policy.val) :
    (job.through o calls).Ordered job.policy.val := by
  induction calls generalizing o with
  | nil => exact h
  | cons c calls ih =>
    have hc := hcalls c (by simp)
    exact ih (fun d hd => hcalls d (by simp [hd])) (safe_call c hc.plain hsafe)
      (job.ordered_call hc hsafe h)

/-- Everything that a run emits ascends in firing time, window start, key and window end, and no
window of a key is emitted twice, whatever the store and the collector refuse. -/
theorem emissions_ascending {calls : List (Call κ ν)} (hcalls : ∀ c ∈ calls, c.Forward)
    (admission : Admission) (faults : FaultPlan) (drains : List (DrainOrder α)) :
    let items := (job.through (job.start ⟨admission, []⟩ faults drains) calls).collector.items
    (items.map (Emission.timer job.policy.val)).Pairwise (fun t u => compare t u = .lt) ∧
      (items.map fun e => (e.key, e.window)).Nodup := by
  intro items
  have hordered := job.ordered_through hcalls
    (fun _ => job.sound_start ⟨.always, []⟩ drains)
    ⟨.nil, fun _ e he => absurd he List.not_mem_nil,
      fun _ => job.noneDue_start ⟨.always, []⟩ .none drains _⟩
  -- under refusals a run emits what comes first without them
  have hfirst := job.prefix_through calls (job.unhindered_start ⟨admission, []⟩ faults drains)
  have hascending : (items.map (Emission.timer job.policy.val)).Pairwise
      fun t u => compare t u = .lt :=
    hordered.ascending.sublist (hfirst.sublist.map _)
  refine ⟨hascending, ?_⟩
  have hdistinct : (items.map (Emission.timer job.policy.val)).Nodup :=
    hascending.imp fun hlt he => by simp [he] at hlt
  refine List.Nodup.of_map (fun kw : κ × Window =>
    (⟨⟨encode kw.1, kw.2⟩, job.policy.val.firesAt kw.2⟩ : Timer)) ?_
  rw [List.map_map]
  exact hdistinct

/-- Sessions of a gap of ten: the session of the first key fires, starts anew next to where it ended,
and merges with what comes later. -/
theorem emissions_ascending_sessions :
    let policy : SoundPolicy := ⟨{ shape := .session 10 }, by decide⟩
    let job := wrappingSums policy
    let calls : List (Call Int64 Int64) := [.input (.record 0 1 5 7), .input (.record 0 2 5 8),
      .input (.advance 14), .input (.record 0 1 14 1), .prepare, .input (.record 0 1 20 2),
      .input (.watermark ⟨40⟩)]
    let items := (job.through (job.start {}) calls).collector.items
    items = [⟨1, ⟨5, 15⟩, 7⟩, ⟨2, ⟨5, 15⟩, 8⟩, ⟨1, ⟨14, 30⟩, 3⟩] ∧
      (items.map (Emission.timer policy.val)).Pairwise (fun t u => compare t u = .lt) ∧
      (items.map fun e => (e.key, e.window)).Nodup := by
  intro policy job calls items
  have hcalls : ∀ c ∈ calls, c.Forward := by
    simp only [calls, List.forall_mem_cons, List.not_mem_nil, false_imp_iff, implies_true, and_true]
    exact ⟨faithful 1, faithful 2, trivial, faithful 1, trivial, faithful 1, trivial⟩
  exact ⟨by decide +kernel, emissions_ascending job hcalls .always .none []⟩

end Job

end Tidemark
