import Tidemark.Proofs.Operator.Assignment
import Tidemark.Proofs.Operator.FixedWindows
import Tidemark.Proofs.Operator.Watermarks

/-! Operators that were told no progress. The first instant stands for that, and it is an instant
like any other as well: a window that fires at it counts as fired from the outset. There is one
such window at most, and records go into all others. -/

namespace Tidemark

namespace Window

/-- The window that holds the first instant alone. -/
def foremost : Window := ⟨.first, .first + 1⟩

theorem foremost_eq_iff {w : Window} (h : w.Proper) :
    w = foremost ↔ w.stop.toInt = Timestamp.first.toInt + 1 := by
  have hstop : (Timestamp.first + 1 : Timestamp).toInt = Timestamp.first.toInt + 1 := by decide
  rw [proper_iff] at h
  have hstart : Timestamp.first.toInt ≤ w.start.toInt := Int64.minValue_le_toInt w.start
  constructor
  · rintro rfl
    exact hstop
  · intro he
    obtain ⟨start, stop⟩ := w
    dsimp only at h he hstart
    rw [foremost, mk.injEq, ← Int64.toInt_inj, ← Int64.toInt_inj, hstop]
    omega

end Window

namespace Policy

variable {p : Policy} {t : Timestamp} {ws : List Window}

theorem lateness_nonneg (h : p.flaw? = none) : 0 ≤ p.lateness.toInt := by
  unfold flaw? at h
  split at h
  · cases h
  · split at h
    · cases h
    · next hlate => simpa using Int64.le_iff_toInt_le.1 (Int64.not_lt.1 hlate)

/-- When progress is the first instant, a window is late if it is the foremost and nothing puts it
off. -/
theorem isLate_first_iff (h : p.flaw? = none) {w : Window} (hw : w.Proper) :
    p.isLate w .first ↔ p.lateness = 0 ∧ w = .foremost := by
  have hlate := lateness_nonneg h
  have hlast := Window.toInt_lastInstant hw
  have hends : Timestamp.first.toInt < Timestamp.last.toInt := by decide
  rw [Window.foremost_eq_iff hw, ← Int64.toInt_inj, Int64.toInt_zero]
  rw [isLate, decide_eq_true_eq, Int64.le_iff_toInt_le, firesAt, Timestamp.shift,
    Timestamp.toInt_nearest_eq, hlast]
  have hstart : Timestamp.first.toInt ≤ w.start.toInt := Int64.minValue_le_toInt w.start
  rw [Window.proper_iff] at hw
  omega

theorem contains_of_mem_windowsAt (h : p.flaw? = none) (hws : p.windowsAt t = some ws) {w : Window}
    (hw : w ∈ ws) : w.contains t := by
  have hframe : w.frame ∈ p.shape.frames p.offset.toInt t.toInt :=
    map_frame_windowsAt h hws ▸ List.mem_map_of_mem hw
  exact Window.contains_iff.2 (Shape.around_of_mem (spacious h)
    ((Shape.mem_frames (spacious h) (regular h)).1 hframe))

theorem windowsAt_ne_nil (h : p.flaw? = none) (hws : p.windowsAt t = some ws) : ws ≠ [] := by
  rintro rfl
  obtain ⟨f, hf, _⟩ := Shape.exists_ends (spacious h) (regular h) p.offset.toInt t.toInt
  rw [← Shape.mem_frames (spacious h) (regular h), ← map_frame_windowsAt h hws] at hf
  cases hf

/-- Only the first instant has the foremost window. -/
theorem eq_first_of_foremost_mem (h : p.flaw? = none) (hws : p.windowsAt t = some ws)
    (hmem : .foremost ∈ ws) : t = .first := by
  obtain ⟨hle, hlt⟩ := Window.contains_iff.1 (contains_of_mem_windowsAt h hws hmem)
  have hstop : Window.foremost.frame.stop = Timestamp.first.toInt + 1 := by decide
  have hstart : Window.foremost.frame.start = Timestamp.first.toInt := rfl
  exact Int64.toInt_inj.1 (by omega)

/-- Where windows merge, a record has one candidate. -/
theorem exists_windowsAt_eq (hm : p.merges) (hws : p.windowsAt t = some ws) : ∃ w, ws = [w] := by
  unfold windowsAt at hws
  split at hws
  · obtain rfl := Option.some.inj hws
    cases hshape : p.shape with
    | session gap => exact ⟨_, rfl⟩
    | _ => simp [merges, hshape] at hm
  · cases hws

end Policy

namespace Job

open Operator

variable {κ ν α ω : Type} [Encoding κ] [Encoding α] {job : Job κ ν α ω} {o o' : Operator κ α ω}
  {key : Bytes} {v : ν} {w : Window} {cause : Prop}

/-- A payload went into the window of a key: into what the window grew to, together with what that
took in, and it waits for its time. -/
structure GoesInto (job : Job κ ν α ω) (key : Bytes) (v : ν) (w : Window) (m : Merger)
    (o o' : Operator κ α ω) : Prop where
  settles : job.policy.val.settle (o.table.contents.live key) w = m
  spans : m.merged.Spans w
  holds : ∃ acc, job.aggregate.grow (o.table.contents.accs α key m.absorbed) v = .ok acc ∧
    o'.entryAt ⟨key, m.merged⟩ = some ⟨acc, job.policy.val.firesAt m.merged⟩
  waits : o'.agenda.fireAt? ⟨key, m.merged⟩ = some (job.policy.val.firesAt m.merged)

/-- Where windows do not merge, a payload goes into each window on its own. -/
theorem Spreads.goesInto {ws : List Window} (h : job.Spreads key v ws o o')
    (hm : ¬ job.policy.val.merges) (hw : w ∈ ws) : job.GoesInto key v w ⟨w, [w]⟩ o o' where
  settles := by rw [Policy.settle, if_neg hm]
  spans := Window.spans_refl w
  holds := by
    obtain ⟨acc, hadd, hentry⟩ := h.added ⟨key, w⟩ ⟨rfl, hw⟩
    refine ⟨acc, ?_, hentry⟩
    rwa [Aggregate.grow_of_combine (Ledger.combine_accs_singleton ..)]
  waits := by
    obtain ⟨acc, _, hentry⟩ := h.added ⟨key, w⟩ ⟨rfl, hw⟩
    rw [h.sound.timely, hentry]
    rfl

variable [LawfulEncoding α]

/-- Where windows merge, a payload goes into the window that its candidate grows to. -/
theorem ensures_accumulate_goesInto (hm : job.policy.val.merges) (h : o.Sound job.policy.val)
    (hkey : KeyOf κ key) (v : ν) (hw : w.Proper) (hcause : ¬ job.aggregate.Total → cause) :
    Ensures (job.accumulate key v w) o cause fun _ o' => ∃ m, job.GoesInto key v w m o o' := by
  refine (job.ensures_accumulate_sound h hkey v (fun _ => hw) rfl hcause).mono ?_
  rintro _ o' ⟨hsound, _, acc, hacc, hgrows⟩
  have hentry := (hgrows ⟨key, _⟩).trans (if_pos rfl)
  refine ⟨_, rfl, ?_, ⟨acc, hacc, hentry⟩, ?_⟩
  · rw [Policy.settle, if_pos hm]
    exact Window.spans_merged _ w
  · rw [hsound.timely, hentry]
    rfl

/-- A payload goes into all windows of a record that have not fired. -/
theorem ensures_forM_accumulate_goesInto (h : o.Sound job.policy.val) (hkey : KeyOf κ key) (v : ν)
    {t : Timestamp} {around : List Window} (hw : job.policy.val.windowsAt t = some around)
    (hcause : ¬ job.aggregate.Total → cause) :
    Ensures ((job.liveAt o around).forM (job.accumulate key v)) o cause fun _ o' =>
      ∀ w ∈ job.liveAt o around, ∃ m, job.GoesInto key v w m o o' := by
  obtain ⟨hnodup, hproper⟩ := Policy.windowsAt_spec job.policy.property hw
  by_cases hm : job.policy.val.merges
  · obtain ⟨c, rfl⟩ := Policy.exists_windowsAt_eq hm hw
    have hpart : (job.liveAt o [c]).Sublist [c] := List.filter_sublist
    rcases List.sublist_singleton.1 hpart with hlive | hlive
    · rw [hlive]
      exact fun w hw => by cases hw
    · rw [hlive]
      refine Ensures.bind (m := fun _ o' => ∃ m, job.GoesInto key v c m o o')
        (ensures_accumulate_goesInto hm h hkey v (hproper c (by simp)) hcause) ?_
      rintro _ o' hinto w hw
      rwa [List.mem_singleton.1 hw]
  · refine (ensures_forM_accumulate_fixed hm h hkey v (hnodup.sublist List.filter_sublist)
      hcause).mono fun _ o' hspread w hw => ?_
    exact ⟨_, hspread.goesInto hm hw⟩

omit [Encoding κ] [LawfulEncoding α] in
theorem GoesInto.congr {p : FaultPlan} {a : Admission} {m : Merger} {o₀ o₀' : Operator κ α ω}
    (h : job.GoesInto key v w m o₀ o₀') (hsame : Unhindered p a o₀ o)
    (hsame' : Unhindered p a o₀' o') : job.GoesInto key v w m o o' := by
  have hentry : ∀ s, o'.entryAt s = o₀'.entryAt s := fun s => by
    rw [entryAt, entryAt, hsame'.contents]
  refine ⟨hsame.contents ▸ h.settles, h.spans, ?_, hsame'.agenda ▸ h.waits⟩
  rw [hsame.contents, hentry]
  exact h.holds

/-- A record is accepted and goes into its windows that have not fired. -/
structure Accepts (job : Job κ ν α ω) (now : Timestamp) (key : κ) (t : Timestamp) (v : ν)
    (around : List Window) (o : Operator κ α ω) : Prop where
  answer : (job.feed now key t v).answer o = .ok .accepted
  goesInto : ∀ w ∈ around, ¬ job.policy.val.isLate w o.progress →
    ∃ m, job.GoesInto (encode key) v w m o ((job.feed now key t v).after o)

section Feed

variable (hrun : o.status = .running) {now t : Timestamp} {key : κ}
  (hkey : Encoding.Faithful key) (v : ν) {around : List Window}
  (hw : job.policy.val.windowsAt (job.stamp now t) = some around)
  (hlive : job.liveAt o around ≠ [])

include hrun hkey hw hlive

/-- A record with a window that has not fired is accepted, unless the aggregate refuses it. -/
theorem accepts_of_sound (h : o.Sound job.policy.val) : job.Accepts now key t v around o ∨
    ∃ e, (job.feed now key t v).answer o = .error e ∧ e.isFatal ∧ ¬ job.aggregate.Total := by
  have hloop : Ensures ((job.liveAt o around).forM (job.accumulate (encode key) v)) o
      (¬ job.aggregate.Total) _ := ensures_forM_accumulate_goesInto h ⟨key, hkey, rfl⟩ v hw id
  have hfeed := job.feed_live hrun hw hlive key v
  unfold Ensures at hloop
  cases hstep : (job.liveAt o around).forM (job.accumulate (encode key) v) o with
  | ok x o' =>
    rw [hstep] at hloop hfeed
    refine .inl ⟨by rw [Command.answer, hfeed], fun w hmem hahead => ?_⟩
    rw [Command.after, hfeed]
    exact hloop w (List.mem_filter.2 ⟨hmem, by simpa using hahead⟩)
  | error e o' =>
    rw [hstep] at hloop hfeed
    exact .inr ⟨e, by rw [Command.answer, hfeed], hloop⟩

/-- As long as nothing was refused, such a record is accepted, or refused for good. -/
theorem accepts_of_intact (h : o.Intact job.policy.val) : job.Accepts now key t v around o ∨
    ∃ e, (job.feed now key t v).answer o = .error e ∧ e.isFatal ∧
      ¬ (job.aggregate.Total ∧ o.table.store.faults = .none) := by
  by_cases hfree : o.table.store.faults = .none
  · rcases accepts_of_sound hrun hkey v hw hlive (h.sound hfree) with hok | ⟨e, he, hfatal, ht⟩
    · exact .inl hok
    · exact .inr ⟨e, he, hfatal, fun h => ht h.1⟩
  · have hcause : ¬ (job.aggregate.Total ∧ o.table.store.faults = .none) := fun h => hfree h.2
    obtain ⟨plan, admission, o₀, hsound, hsame⟩ := h
    have hprogress : o₀.progress = o.progress := hsame.sameClocks.progress
    have hlive₀ : job.liveAt o₀ around ≠ [] := by rwa [liveAt, hprogress]
    have htracks := (job.performs_tracked (p := plan) (a := admission)).runs_feed now key t v
    rcases htracks.tracks.same_or_stopped hsame with ⟨hanswer, hafter⟩ | ⟨e, he, ⟨hrefusal, _⟩, _⟩
    · rcases accepts_of_sound (hsame.status ▸ hrun) hkey v hw hlive₀ hsound with
        ⟨hok, hinto⟩ | ⟨e, he, hfatal, _⟩
      · refine .inl ⟨hanswer.trans hok, fun w hmem hahead => ?_⟩
        obtain ⟨m, hm⟩ := hinto w hmem (hprogress ▸ hahead)
        exact ⟨m, hm.congr hsame hafter⟩
      · exact .inr ⟨e, hanswer.trans he, hfatal, hcause⟩
    · exact .inr ⟨e, he, hrefusal.isFatal, hcause⟩

end Feed

end Job

/-! ### Runs -/

/-- No progress is told: nothing is announced and nothing is restored. -/
def Call.Silent {κ ν : Type} : Call κ ν → Prop
  | .input (.record ..) => True
  | .input _ => False
  | .restore _ => False
  | .rewind values => values = []
  | _ => True

namespace Job

open Operator

variable {κ ν α ω : Type} [Encoding κ] [Encoding α] {job : Job κ ν α ω} {o : Operator κ α ω}
  {calls : List (Call κ ν)}

/-- In event time, progress stays where it is unless it is told. -/
theorem progress_silent (hdomain : job.settings.val.domain = .event) {c : Call κ ν} (hc : c.Silent)
    (hrun : ((job.call c).after o).status = .running) :
    ((job.call c).after o).progress = o.progress := by
  by_cases hrewind : ∃ values, c = .rewind values
  · obtain ⟨values, rfl⟩ := hrewind
    obtain rfl : values = [] := hc
    rw [call, Command.after_map, after_rewind (running_of_call hrun)]
    rfl
  · have hrestore : ∀ bs, c ≠ .restore bs := by
      rintro bs rfl
      exact hc
    have hmark := job.mark_call c hrestore (not_exists.1 hrewind) hrun
    have hsilent : job.announces c = [] := by
      cases c with
      | input i =>
        cases i with
        | record => rfl
        | advance => exact hc.elim
        | watermark => exact hc.elim
      | _ => rfl
    rwa [hsilent, mark, mark, hdomain] at hmark

omit [Encoding κ] [Encoding α] in
/-- Before any progress, all windows of a record are late only if the foremost is all of them. -/
theorem liveAt_first_eq_nil (hfirst : o.progress = .first) {t : Timestamp} {around : List Window}
    (hw : job.policy.val.windowsAt t = some around) : job.liveAt o around = [] ↔
      job.policy.val.lateness = 0 ∧ around = [.foremost] := by
  obtain ⟨hnodup, hproper⟩ := Policy.windowsAt_spec job.policy.property hw
  have hlate : job.liveAt o around = [] ↔
      ∀ w ∈ around, job.policy.val.lateness = 0 ∧ w = .foremost := by
    rw [job.liveAt_eq_nil, hfirst]
    refine forall₂_congr fun w hmem => ?_
    rw [← Policy.isLate_first_iff job.policy.property (hproper w hmem), Policy.isLate,
      decide_eq_true_eq]
  rw [hlate]
  constructor
  · intro hall
    obtain ⟨w, rest, rfl⟩ := List.exists_cons_of_ne_nil
      (Policy.windowsAt_ne_nil job.policy.property hw)
    obtain ⟨hzero, rfl⟩ := hall w (by simp)
    -- a second window would be the foremost one again
    have hrest : rest = [] := List.eq_nil_iff_forall_not_mem.2 fun w' hw' =>
      (List.nodup_cons.1 hnodup).1 ((hall w' (by simp [hw'])).2 ▸ hw')
    exact ⟨hzero, by rw [hrest]⟩
  · rintro ⟨hzero, rfl⟩ w hmem
    exact ⟨hzero, List.mem_singleton.1 hmem⟩

variable [LawfulEncoding α]

theorem intact_through_silent (hdomain : job.settings.val.domain = .event)
    (collector : Collector (Emission κ ω)) (faults : FaultPlan) (drains : List (DrainOrder α))
    (hcalls : ∀ c ∈ calls, c.Plain ∧ c.Silent)
    (hrun : (job.through (job.start collector faults drains) calls).status = .running) :
    (job.through (job.start collector faults drains) calls).progress = .first ∧
      (job.through (job.start collector faults drains) calls).Intact job.policy.val := by
  induction calls using List.reverseRecOn with
  | nil =>
    exact ⟨rfl, _, _, _, job.sound_start { collector with admission := .always } drains,
      job.unhindered_start collector faults drains⟩
  | append_singleton fore c ih =>
    obtain ⟨hplain, hsilent⟩ := hcalls c (by simp)
    rw [through_append] at hrun ⊢
    obtain ⟨hfirst, hintact⟩ := ih (fun d hd => hcalls d (by simp [hd])) (running_of_call hrun)
    exact ⟨(progress_silent hdomain hsilent hrun).trans hfirst, hintact.call hplain hrun⟩

/-- Before any progress no window is late but the foremost, and that only if the policy allows no
lateness. Just the records of the first instant have that window, and one that has no other is
dropped. Every other record with windows on the time line is accepted and goes into those that are
not late. Only the aggregate or the store can refuse it, and then for good. -/
theorem late_at_outset (job : Job κ ν α ω) (hdomain : job.settings.val.domain = .event)
    (collector : Collector (Emission κ ω)) (faults : FaultPlan) (drains : List (DrainOrder α))
    (hcalls : ∀ c ∈ calls, c.Plain ∧ c.Silent)
    (ho : job.through (job.start collector faults drains) calls = o) (hrun : o.status = .running)
    (now : Timestamp) {key : κ} (hkey : Encoding.Faithful key) (t : Timestamp) (v : ν)
    {around : List Window} (hw : job.policy.val.windowsAt t = some around) :
    (∀ w ∈ around, job.policy.val.isLate w o.progress ↔
      job.policy.val.lateness = 0 ∧ w = .foremost) ∧
    (.foremost ∈ around → t = .first) ∧
    if job.policy.val.lateness = 0 ∧ around = [.foremost] then
      (job.feed now key t v).answer o = .ok .dropped
    else job.Accepts now key t v around o ∨
      ∃ e, (job.feed now key t v).answer o = .error e ∧ e.isFatal ∧
        ¬ (job.aggregate.Total ∧ o.table.store.faults = .none) := by
  subst ho
  obtain ⟨hfirst, hintact⟩ := intact_through_silent hdomain collector faults drains hcalls hrun
  have hproper := (Policy.windowsAt_spec job.policy.property hw).2
  have hstamp : job.policy.val.windowsAt (job.stamp now t) = some around := by
    rw [stamp_event hdomain, hw]
  refine ⟨fun w hmem => ?_, Policy.eq_first_of_foremost_mem job.policy.property hw, ?_⟩
  · rw [hfirst]
    exact Policy.isLate_first_iff job.policy.property (hproper w hmem)
  · split
    · next hsole =>
      rw [Command.answer, job.feed_late hrun hstamp ((liveAt_first_eq_nil hfirst hw).2 hsole)]
    · next hmore =>
      exact accepts_of_intact hrun hkey v hstamp (hmore ∘ (liveAt_first_eq_nil hfirst hw).1) hintact

/-- A cumulating policy has the foremost window and one more at the first instant: the record goes
into that one. -/
theorem late_at_outset_cumulating :
    let job := wrappingSums ⟨{ shape := .cumulating 2 1 }, by decide⟩
    let calls : List (Call Int64 Int64) := [.input (.record 0 1 5 7), .prepare]
    let o := job.through (job.start {}) calls
    let around : List Window := [.foremost, ⟨.first, .first + 2⟩]
    job.policy.val.windowsAt .first = some around ∧
      job.policy.val.isLate .foremost o.progress ∧ job.Accepts 0 1 .first 8 around o := by
  intro job calls o around
  have hw : job.policy.val.windowsAt .first = some around := by decide +kernel
  have hcalls : ∀ c ∈ calls, c.Plain ∧ c.Silent := by
    simp only [calls, List.mem_cons, List.not_mem_nil, or_false, forall_eq_or_imp, forall_eq]
    exact ⟨⟨faithful 1, trivial⟩, trivial, trivial⟩
  obtain ⟨hlate, _, hfeed⟩ := late_at_outset job rfl {} .none [] hcalls (o := o) rfl
    (by decide +kernel) 0 (faithful 1) .first 8 hw
  refine ⟨hw, (hlate _ (by simp [around])).2 ⟨rfl, rfl⟩, ?_⟩
  rw [if_neg (by decide)] at hfeed
  rcases hfeed with haccepts | ⟨_, _, _, hcause⟩
  · exact haccepts
  · exact absurd ⟨Aggregate.monoidal_wrappingSum.toTotal, by decide +kernel⟩ hcause

/-- A tumbling policy of one millisecond has the foremost window alone at the first instant: the
record is dropped before any progress. -/
theorem dropped_at_outset :
    let job := wrappingSums ⟨{ shape := .tumbling 1 }, by decide⟩
    let o := job.start {}
    job.policy.val.windowsAt .first = some [.foremost] ∧ o.progress = .first ∧
      (job.feed 0 1 .first 7).answer o = .ok .dropped ∧
      ((job.feed 0 1 .first 7).after o).drops.total = 1 := by
  intro job o
  have hw : job.policy.val.windowsAt .first = some [.foremost] := by decide +kernel
  have hnone : job.liveAt o [.foremost] = [] := by decide +kernel
  have hfeed : job.feed 0 1 .first 7 o = .ok .dropped { o with drops := o.drops.mark 0 } :=
    job.feed_late rfl hw hnone 1 7
  rw [Command.answer, Command.after, hfeed]
  exact ⟨hw, rfl, rfl, by decide +kernel⟩

end Job

end Tidemark
