import Tidemark.Proofs.Operator.Punctuality

/-! The time domains side by side. In processing time an operator notes the callbacks that it acted
on and the watermarks that it passed on; in event time it notes neither. Nothing else depends on
these marks: an operator in processing time goes the way of one in event time that gets clock
readings for timestamps and announcements for callbacks. That an ignored callback would have fired
nothing is due to one invariant, that no callback was noted which is ahead of progress. -/

namespace Tidemark

open Command

namespace Operator

variable {κ ν α ω β γ : Type} {o o' : Operator κ α ω}

/-- The operators differ in their marks at most. -/
structure SameButMarks (o o' : Operator κ α ω) : Prop where
  table : o'.table = o.table
  agenda : o'.agenda = o.agenda
  drops : o'.drops = o.drops
  status : o'.status = o.status
  collector : o'.collector = o.collector

theorem sameButMarks_rfl : SameButMarks o o := ⟨rfl, rfl, rfl, rfl, rfl⟩

theorem SameButMarks.trans {o₁ o₂ o₃ : Operator κ α ω} (h : SameButMarks o₁ o₂)
    (h' : SameButMarks o₂ o₃) : SameButMarks o₁ o₃ :=
  ⟨h'.table.trans h.table, h'.agenda.trans h.agenda, h'.drops.trans h.drops,
    h'.status.trans h.status, h'.collector.trans h.collector⟩

theorem SameButMarks.progress (h : SameButMarks o o') : o'.progress = o.progress :=
  congrArg Agenda.progress h.agenda

/-- `c` takes no notice of the marks. -/
abbrev Blind (c : Command (Operator κ α ω) β) : Prop := Tracks SameButMarks (fun _ _ _ => False) c

theorem Blind.sameButMarks {c : Command (Operator κ α ω) β} (hc : Blind c) (h : SameButMarks o o') :
    c.answer o' = c.answer o ∧ SameButMarks (c.after o) (c.after o') := by
  rcases hc.same_or_stopped h with hsame | ⟨_, _, hstopped⟩
  · exact hsame
  · exact hstopped.elim

theorem blind_onTable (c : Command (Table α) β) :
    Blind (onTable c : Command (Operator κ α ω) β) :=
  tracks_focus_part c (fun _ _ h => h.table.symm) fun _ _ _ h => { h with table := rfl }

theorem blind_emit (e : Emission κ ω) : Blind (emit e : Command (Operator κ α ω) Unit) :=
  tracks_focus_part _ (fun _ _ h => h.collector.symm) fun _ _ _ h => { h with collector := rfl }

theorem blind_whileRunning {c : Command (Operator κ α ω) β} (hc : Blind c) :
    Blind (whileRunning c) :=
  tracks_whileRunning hc (fun _ _ _ h => h) (fun _ _ h => h.status)
    (fun _ _ h => { h with status := rfl }) fun _ _ _ h => h.elim

theorem blind_close : Blind (close : Command (Operator κ α ω) Unit) := by
  unfold close
  refine tracks_get (fun o => composes_tracks.ite _ (tracks_pure _) ?_) fun o o' h => by
    rw [h.status]
  refine composes_tracks.bind (tracks_modify (fun _ _ _ h => h) fun _ _ h => ?_) fun _ =>
    composes_tracks.bind (blind_onTable _) fun _ =>
      tracks_modify (fun _ _ _ h => h) fun _ _ h => { h with status := rfl }
  exact { h with agenda := congrArg Agenda.clear h.agenda }

theorem Runs.blind {c : Command (Operator κ α ω) β} (hc : Runs Blind c) : Blind c := by
  induction hc with
  | step hc => exact blind_whileRunning hc
  | map _ f ih => exact composes_tracks.map ih f

end Operator

/-- The same answer, or images that differ in their marks at most. -/
inductive Answer.SameButMarks : Except Error Answer → Except Error Answer → Prop
  | same (x : Except Error Answer) : SameButMarks x x
  | image {i i' : Image} (hprogress : i'.progress = i.progress) (hstate : i'.state = i.state) :
    SameButMarks (.ok (.bytes (encode i))) (.ok (.bytes (encode i')))

/-- The same is seen, but for the marks in images. -/
structure Observation.SameButMarks {κ ω : Type} (x y : Observation κ ω) : Prop where
  answer : Answer.SameButMarks x.answer y.answer
  emitted : y.emitted = x.emitted
  progress : y.progress = x.progress
  pending : y.pending = x.pending
  next? : y.next? = x.next?

/-- What an operator in event time gets in place of a call: the clock for the timestamp of a record,
an announcement for a callback, and nothing for a watermark. -/
def Call.inEventTime {κ ν : Type} : Call κ ν → Option (Call κ ν)
  | .input (.record now key _ v) => some (.input (.record now key now v))
  | .input (.watermark _) => none
  | .tick t => some (.input (.advance t))
  | c => some c

namespace Job

open Operator

variable {κ ν α ω : Type} [Encoding κ] [Encoding α] {job : Job κ ν α ω} {o o' : Operator κ α ω}

omit [Encoding κ] [Encoding α] in
/-- The same job, driven by watermarks. -/
def inEventTime (job : Job κ ν α ω) : Job κ ν α ω :=
  { job with settings := ⟨{ job.settings.val with domain := .event }, job.settings.property⟩ }

/-! ### Calls -/

omit [Encoding κ] in
theorem performs_blind (job : Job κ ν α ω) : job.Performs SameButMarks Blind where
  toComposes := composes_tracks
  agenda h := h.agenda.symm
  ofExcept := tracks_ofExcept
  emit := blind_emit
  read hk := by
    refine ⟨fun _ _ _ h => h, fun o o' h => ?_⟩
    obtain ⟨c, hc, hnext⟩ := hk o
    rw [run_get_bind, run_get_bind, hnext o sameButMarks_rfl, hnext o' h]
    exact hc.beside o o' h
  change f _ _ mark := tracks_modify (fun _ _ _ h => h) fun _ _ h =>
    { h with agenda := congrArg f h.agenda, drops := congrArg mark h.drops }
  mergeSession _ _ := blind_onTable _
  add _ _ _ := blind_onTable _
  finish _ := blind_onTable _
  discard _ := blind_onTable _
  discardSession _ := blind_onTable _
  flush := blind_onTable _
  snapshot := blind_onTable _

/-- In processing time a record is stamped with the clock. -/
theorem feed_inEventTime (hdomain : job.settings.val.domain = .processing) (now : Timestamp)
    (key : κ) (t : Timestamp) (v : ν) :
    job.inEventTime.feed now key now v = job.feed now key t v := by
  have hstamp : job.stamp now t = job.inEventTime.stamp now now := by
    rw [stamp, stamp, hdomain]
    rfl
  unfold feed
  rw [hstamp]
  rfl

/-- A callback is an announcement. One that comes no later than the last is no news either, as
progress is not behind the last. -/
theorem tick_eq_advance (hdomain : job.settings.val.domain = .processing)
    (hnoted : o.status = .running → o.lastTick ≤ o.progress) (t : Timestamp) :
    ∃ o₁, job.tick t o = job.advance t o₁ ∧ SameButMarks o₁ o := by
  by_cases hrun : o.status = .running
  · by_cases hnews : o.lastTick < t
    · refine ⟨{ o with lastTick := t }, ?_, ⟨rfl, rfl, rfl, rfl, rfl⟩⟩
      have hrun' : ({ o with lastTick := t } : Operator κ α ω).status = .running := hrun
      unfold tick advance
      rw [whileRunning_eq _ hrun, whileRunning_eq _ hrun']
      simp only [hdomain, run_bind, run_get, if_pos hnews, run_set]
    · refine ⟨o, ?_, sameButMarks_rfl⟩
      have hle : ¬ o.progress < t :=
        Int64.not_lt.2 (Int64.le_trans (Int64.not_lt.1 hnews) (hnoted hrun))
      unfold tick advance
      rw [whileRunning_eq _ hrun, whileRunning_eq _ hrun, job.reach_of_le hle]
      simp only [hdomain, run_bind, run_get, if_neg hnews, run_pure]
  · refine ⟨o, ?_, sameButMarks_rfl⟩
    unfold tick advance
    rw [whileRunning_of_ne _ hrun, whileRunning_of_ne _ hrun]

/-- In processing time a watermark is noted at most. -/
theorem sameButMarks_watermark (hdomain : job.settings.val.domain = .processing) (w : Watermark)
    (h : SameButMarks o o') : SameButMarks ((job.watermark w).after o) o' := by
  by_cases hrun : o.status = .running
  · unfold Command.after watermark
    rw [whileRunning_eq _ hrun]
    by_cases hnews : o.forwarded < w.timestamp
    · simp only [hdomain, run_bind, run_get, if_pos hnews, run_set, run_pure]
      exact ⟨h.table, h.agenda, h.drops, h.status, h.collector⟩
    · simp only [hdomain, run_bind, run_get, if_neg hnews, run_pure]
      exact h
  · unfold watermark
    rw [after_whileRunning_of_ne _ hrun]
    exact h

omit [Encoding κ] in
/-- The marks go into an image, and they are all that differs. -/
theorem sameButMarks_snapshot (h : SameButMarks o o') :
    Answer.SameButMarks ((.bytes <$> snapshot : Command (Operator κ α ω) Answer).answer o)
        ((.bytes <$> snapshot : Command (Operator κ α ω) Answer).answer o') ∧
      SameButMarks ((snapshot (ω := ω)).after o) (snapshot.after o') := by
  by_cases hrun : o.status = .running
  · have hstate := (blind_onTable (ω := ω) (κ := κ) (Table.snapshot (α := α))).beside o o' h
    rw [Command.answer_map, Command.answer_map]
    unfold Command.answer Command.after snapshot
    rw [whileRunning_eq _ hrun, whileRunning_eq _ (h.status.trans hrun), run_bind, run_bind]
    generalize onTable Table.snapshot o = r at hstate
    generalize onTable Table.snapshot o' = r' at hstate
    cases hstate with
    | ok state h' => exact ⟨.image h'.progress rfl, h'⟩
    | error e h' =>
      refine ⟨.same _, ?_⟩
      dsimp only
      split
      · exact { h' with status := rfl }
      · exact h'
    | stopped _ _ h' => exact h'.elim
  · rw [Command.answer_map, Command.answer_map]
    unfold Command.answer Command.after snapshot
    rw [whileRunning_of_ne _ hrun, whileRunning_of_ne _ (h.status ▸ hrun), h.status]
    exact ⟨.same _, h⟩

/-- Operators that differ in their marks at most do the same, one in processing time and one in
event time that gets the counterpart of the call. -/
theorem sameButMarks_call (hdomain : job.settings.val.domain = .processing)
    (hnoted : o.status = .running → o.lastTick ≤ o.progress) (h : SameButMarks o o') {c : Call κ ν}
    (hc : c.Forward) :
    match c.inEventTime with
    | none => SameButMarks ((job.call c).after o) o'
    | some c' =>
      Answer.SameButMarks ((job.call c).answer o) ((job.inEventTime.call c').answer o') ∧
        SameButMarks ((job.call c).after o) ((job.inEventTime.call c').after o') := by
  have hblind : ∀ {d : Command (Operator κ α ω) Answer}, Blind d →
      Answer.SameButMarks (d.answer o) (d.answer o') ∧ SameButMarks (d.after o) (d.after o') := by
    intro d hd
    obtain ⟨hanswer, hafter⟩ := hd.sameButMarks h
    exact ⟨hanswer ▸ .same _, hafter⟩
  have hperforms := job.performs_blind
  cases c with
  | input i =>
    cases i with
    | record now key t v =>
      have hfeed : job.inEventTime.call (.input (.record now key now v)) =
          job.call (.input (.record now key t v)) := by
        rw [call, take, feed_inEventTime hdomain now key t v, call, take]
      dsimp only [Call.inEventTime]
      rw [hfeed]
      exact hblind ((hperforms.runs_feed now key t v).map _).blind
    | advance q => exact hblind (Runs.map (.step (hperforms.reach q)) _).blind
    | watermark w =>
      dsimp only [Call.inEventTime]
      rw [call, take, Command.after_map]
      exact sameButMarks_watermark hdomain w h
  | tick t =>
    obtain ⟨o₁, htick, hmarks⟩ := tick_eq_advance hdomain hnoted t
    have hcall : job.call (.tick t) o = job.call (.input (.advance t)) o₁ := by
      show EStateM.map _ _ o = EStateM.map _ _ o₁
      rw [EStateM.map, EStateM.map, htick]
    obtain ⟨hanswer, hafter⟩ : (job.call (.input (.advance t))).answer o' = _ ∧ SameButMarks _ _ :=
      (Runs.map (.step (hperforms.reach t)) _).blind.sameButMarks (hmarks.trans h)
    dsimp only [Call.inEventTime]
    rw [Command.answer, Command.after, hcall]
    exact ⟨hanswer ▸ .same _, hafter⟩
  | prepare => exact hblind (Runs.map (.step hperforms.flush) _).blind
  | snapshot =>
    dsimp only [Call.inEventTime]
    rw [call, call, Command.after_map, Command.after_map]
    exact sameButMarks_snapshot h
  | restore bs => exact hc.elim
  | rewind values => exact hc.elim
  | close => exact hblind (composes_tracks.map blind_close _)

/-! ### Runs -/

/-- A watermark emits nothing, and after every call the operators differ in their marks at most. -/
theorem sameButMarks_through [LawfulEncoding α] {allowed : Operator κ α ω → Timestamp → Prop}
    (hallowed : ∀ o p, allowed o p → o.lastTick ≤ p)
    (hdomain : job.settings.val.domain = .processing) (hreached : job.ReachedWithin allowed o)
    (h : SameButMarks o o') {calls : List (Call κ ν)} (hcalls : ∀ c ∈ calls, c.Forward) :
    job.ReachedWithin allowed (job.through o calls) ∧ SameButMarks (job.through o calls)
      (job.inEventTime.through o' (calls.filterMap Call.inEventTime)) := by
  induction calls generalizing o o' with
  | nil => exact ⟨hreached, h⟩
  | cons c calls ih =>
    have hc : c.Forward := hcalls c (by simp)
    have hrest : ∀ d ∈ calls, d.Forward := fun d hd => hcalls d (by simp [hd])
    have hstep := sameButMarks_call hdomain (hreached.lastTick_le hallowed) h hc
    cases hcounter : c.inEventTime with
    | none =>
      rw [hcounter] at hstep
      rw [List.filterMap_cons_none hcounter]
      exact ih (hreached.forward c hc) hstep hrest
    | some c' =>
      rw [hcounter] at hstep
      rw [List.filterMap_cons_some hcounter]
      exact ih (hreached.forward c hc) hstep.2 hrest

omit [Encoding κ] [Encoding α] in
/-- What is seen of calls where the operators differ in their marks at most, before and after. -/
theorem sameButMarks_observe {o₁ o₁' : Operator κ α ω} {x x' : Except Error Answer}
    (h : SameButMarks o o') (h₁ : SameButMarks o₁ o₁') (hanswer : Answer.SameButMarks x x') :
    Observation.SameButMarks (o.observe o₁ x) (o'.observe o₁' x') where
  answer := hanswer
  emitted := by
    rw [observe, observe, emittedSince, emittedSince, h.collector, h₁.collector]
  progress := h₁.progress
  pending := congrArg Agenda.size h₁.agenda
  next? := congrArg Agenda.next? h₁.agenda

/-- Processing time is event time driven by the clock. In event time, let a job get the clock for
the timestamps of the records, an announcement for every callback, and no watermarks. Then after
every call it differs in its marks at most from the job in processing time, and it shows the same of
the next call, however the clock and the callbacks run. A callback that is ignored would have reached
nothing. -/
theorem processing_time_eq [LawfulEncoding α] (hdomain : job.settings.val.domain = .processing)
    (collector : Collector (Emission κ ω)) (faults : FaultPlan) (drains : List (DrainOrder α))
    {calls : List (Call κ ν)} (hcalls : ∀ c ∈ calls, c.Forward) :
    let event := job.inEventTime
    let o := job.through (job.start collector faults drains) calls
    let o' := event.through (event.start collector faults drains)
      (calls.filterMap Call.inEventTime)
    SameButMarks o o' ∧
    (∀ c : Call κ ν, c.Forward → ∀ c', c.inEventTime = some c' →
      Observation.SameButMarks (o.observe ((job.call c).after o) ((job.call c).answer o))
        (o'.observe ((event.call c').after o') ((event.call c').answer o'))) ∧
    (o.status = .running → ∀ q ≤ o.lastTick, o.NoneDue q ∧ job.reach q o = .ok () o) := by
  intro event o o'
  have hstart : job.ReachedWithin (fun _ _ => False) (job.start collector faults drains) :=
    .start job collector faults drains
  obtain ⟨hreached, hmarks⟩ :=
    sameButMarks_through (fun _ _ h => h.elim) hdomain hstart sameButMarks_rfl hcalls
  have hnoted := hreached.lastTick_le fun _ _ h => h.elim
  refine ⟨hmarks, fun c hc c' hcounter => ?_, fun hrun q hq => ?_⟩
  · have hstep := sameButMarks_call hdomain hnoted hmarks hc
    rw [hcounter] at hstep
    exact sameButMarks_observe hmarks hstep.2 hstep.1
  · have hle : q ≤ o.progress := Int64.le_trans hq (hnoted hrun)
    have hdue := hreached.noneDue (fun _ _ h => h.elim) hrun
    exact ⟨hdue.mono hle, job.reach_of_le (Int64.not_lt.2 hle)⟩

/-- The clock falls back between two records, and a callback after the one at 9: the sum is the
same, and neither the timestamps of the records nor the watermark matter. -/
theorem processing_time_eq_sums :
    let job := clockedSums ⟨{ shape := .tumbling 10 }, by decide⟩
    let calls : List (Call Int64 Int64) := [.input (.record 5 1 70 7), .input (.watermark ⟨50⟩),
      .input (.record 3 1 0 8), .tick 9, .tick 2]
    let o := job.through (job.start {}) calls
    let o' := job.inEventTime.through (job.inEventTime.start {}) [.input (.record 5 1 5 7),
      .input (.record 3 1 3 8), .input (.advance 9), .input (.advance 2)]
    o.collector.items = [⟨1, ⟨0, 10⟩, 15⟩] ∧ o'.collector = o.collector ∧ o.NoneDue 2 := by
  intro job calls o o'
  have hcalls : ∀ c ∈ calls, c.Forward := by
    intro c hc
    cases c with
    | input i => exact i.plain
    | tick t => trivial
    | _ => simp [calls] at hc
  have hdomain : job.settings.val.domain = .processing := rfl
  obtain ⟨hmarks, _, hignored⟩ : SameButMarks o o' ∧ _ :=
    processing_time_eq hdomain {} .none [] hcalls
  obtain ⟨hdue, _⟩ := hignored (by decide +kernel) 2 (by decide +kernel)
  exact ⟨by decide +kernel, hmarks.collector, hdue⟩

end Job

end Tidemark
