import Mathlib.Order.Bounds.Basic
import Tidemark.Proofs.Operator.FailedFiring
import Tidemark.Proofs.Operator.TimeDomains

/-! Watermarks never fall back. An operator passes on the highest time that it was told: in event
time of all watermarks and announcements, which it keeps as its progress, and in processing time of
all watermarks, which it keeps aside. An operator that starts over from an image takes up both. -/

namespace Tidemark

open Command

namespace Timestamp

/-- The highest of some times, or the first instant. -/
def highest (ts : List Timestamp) : Timestamp := ts.foldl max .first

theorem max_eq (s t : Timestamp) : max s t = if s < t then t else s := by
  refine Int64.toInt_inj.1 ?_
  rw [toInt_max]
  split
  · next h => exact Int.max_eq_right (Int.le_of_lt (Int64.lt_iff_toInt_lt.1 h))
  · next h => exact Int.max_eq_left (Int64.le_iff_toInt_le.1 (Int64.not_lt.1 h))

theorem le_max_left (s t : Timestamp) : s ≤ max s t := by
  rw [Int64.le_iff_toInt_le, toInt_max]
  exact Int.le_max_left _ _

theorem le_max_right (s t : Timestamp) : t ≤ max s t := by
  rw [Int64.le_iff_toInt_le, toInt_max]
  exact Int.le_max_right _ _

theorem highest_append (ts us : List Timestamp) :
    highest (ts ++ us) = us.foldl max (highest ts) := List.foldl_append

theorem highest_le_append (ts us : List Timestamp) : highest ts ≤ highest (ts ++ us) := by
  rw [highest_append]
  generalize highest ts = s
  induction us generalizing s with
  | nil => exact Int64.le_refl s
  | cons u us ih => exact Int64.le_trans (le_max_left s u) (ih (max s u))

theorem le_highest {ts : List Timestamp} {t : Timestamp} (h : t ∈ ts) : t ≤ highest ts := by
  obtain ⟨fore, rest, rfl⟩ := List.append_of_mem h
  have hfore : t ≤ highest (fore ++ [t]) := by
    rw [highest_append]
    exact le_max_right _ _
  have happend := highest_le_append (fore ++ [t]) rest
  rw [List.append_assoc] at happend
  exact Int64.le_trans hfore happend

theorem highest_mem {ts : List Timestamp} (h : highest ts ≠ .first) : highest ts ∈ ts := by
  induction ts using List.reverseRecOn with
  | nil => exact absurd rfl h
  | append_singleton ts t ih =>
    have hmax : highest (ts ++ [t]) = max (highest ts) t := highest_append ts [t]
    rw [hmax, max_eq] at h ⊢
    split
    · simp
    · next hlt =>
      rw [if_neg hlt] at h
      exact List.mem_append_left _ (ih h)

theorem isGreatest_highest {ts : List Timestamp} (h : ts ≠ []) :
    IsGreatest {t | t ∈ ts} (highest ts) := by
  refine ⟨?_, fun _ => le_highest⟩
  by_cases hfirst : highest ts = .first
  · -- nothing is below the first instant, so a member that is not above it is the first instant
    obtain ⟨t, ht⟩ := List.exists_mem_of_ne_nil ts h
    have hle := Int64.le_iff_toInt_le.1 (hfirst ▸ le_highest ht)
    have hge : first.toInt ≤ t.toInt := Int64.minValue_le_toInt t
    have he : first = t := Int64.toInt_inj.1 (Int.le_antisymm hge hle)
    rwa [hfirst, he]
  · exact highest_mem hfirst

end Timestamp

namespace Operator

variable {κ ν α ω β : Type} {o o' : Operator κ α ω}

/-- Progress, and the highest watermark passed on in processing time. -/
def marks (o : Operator κ α ω) : Timestamp × Timestamp := (o.progress, o.forwarded)

variable {m : Timestamp × Timestamp}

theorem keeps_marks_onTable (c : Command (Table α) β) :
    Keeps (fun _ o => marks o = m) (fun o => marks o = m)
      (onTable c : Command (Operator κ α ω) β) :=
  keeps_focus c fun _ _ h => h

theorem Fires.marks {due : List Timer} (h : Fires due o o') : o'.marks = o.marks := by
  rw [h.rest]
  rfl

end Operator

/-! ### What calls do to the marks -/

namespace Job

open Operator Timestamp

variable {κ ν α ω : Type} [Encoding κ] [Encoding α] (job : Job κ ν α ω) {o o' : Operator κ α ω}
  {m : Timestamp × Timestamp}

omit [Encoding κ] in
theorem keeps_marks_accumulate (key : Bytes) (v : ν) (candidate : Window) :
    Keeps (fun _ o => marks o = m) (fun o => marks o = m)
      (job.accumulate key v candidate : Command (Operator κ α ω) Unit) := by
  have hsettle : Keeps (fun _ o => marks o = m) (fun o => marks o = m)
      (job.settle key candidate : Command (Operator κ α ω) Window) := by
    unfold Job.settle
    refine composes_keeps.ite _ ?_ (keeps_pure candidate)
    refine (keeps_marks_onTable _).bind fun m => Keeps.bind (keeps_modify fun o ho => ?_) fun _ =>
      keeps_pure m.window
    rw [← ho, marks, marks, progress, progress, Agenda.progress_foldl_cancel]
  refine hsettle.bind fun w => (keeps_marks_onTable _).bind fun _ => keeps_modify fun o ho => ?_
  rw [← ho, marks, marks, progress, progress, Agenda.progress_register]

/-- Progress that is reached is the higher of the old and the new, unless a failure is fatal. -/
theorem leads_reach_marks (p : Timestamp) (o : Operator κ α ω) :
    Leads (job.reach p) o (fun _ o' => o'.marks = (max o.progress p, o.forwarded))
      fun o' => o'.marks = (max o.progress p, o.forwarded) := by
  rw [max_eq]
  refine leads_get ?_
  split
  · next hp =>
    have hflush : Leads (onTable Table.flush) o
        (fun _ o' => o'.marks = (p, o.forwarded)) fun o₁ => ∃ table, o₁ = { o with table } :=
      leads_onTable (Table.keeps_flush Table.downward_true) fun table => ⟨table, rfl⟩
    refine hflush.bind ?_
    rintro _ _ ⟨table, rfl⟩
    have hmarks : marks { o with table, agenda := (o.agenda.advance p).2 } = (p, o.forwarded) := by
      rw [marks, progress, Agenda.progress_advance hp]
    refine leads_get (leads_set ((job.leads_forM_fire _ _).mono ?_ ?_))
    · rintro _ o' ⟨fore, t, rest, _, _, hfires⟩
      exact hfires.marks.trans hmarks
    · exact fun o' hfires => hfires.marks.trans hmarks
  · rfl

/-- The mark that watermarks are held against: progress in event time, and the highest watermark
passed on in processing time. -/
def mark (o : Operator κ α ω) : Timestamp :=
  match job.settings.val.domain with
  | .event => o.progress
  | .processing => o.forwarded

/-- The times that a call announces: watermarks, and in event time other progress as well. -/
def announces : Call κ ν → List Timestamp
  | .input (.watermark w) => [w.timestamp]
  | .input (.advance p) =>
    match job.settings.val.domain with
    | .event => [p]
    | .processing => []
  | _ => []

omit [Encoding κ] [Encoding α] in
theorem mark_of_marks (h : o'.marks = o.marks) : job.mark o' = job.mark o := by
  obtain ⟨hprogress, hforwarded⟩ := Prod.mk.inj h
  unfold mark
  cases job.settings.val.domain with
  | event => exact hprogress
  | processing => exact hforwarded

theorem mark_feed (now : Timestamp) (key : κ) (t : Timestamp) (v : ν)
    (hrun : ((job.feed now key t v).after o).status = .running) :
    job.mark ((job.feed now key t v).after o) = job.mark o := by
  refine job.mark_of_marks (of_running_after (P := fun o' => o'.marks = o.marks) (fun _ => ?_) hrun)
  dsimp only
  cases job.policy.val.windowsAt (job.stamp now t) with
  | none => exact .inr rfl
  | some around =>
    refine leads_get ?_
    split
    · rfl
    · exact composes_keeps.bind (composes_keeps.forM (job.keeps_marks_accumulate (encode key) v) _)
        (fun _ => keeps_pure _) o rfl

theorem mark_advance (p : Timestamp) (hrun : ((job.advance p).after o).status = .running) :
    job.mark ((job.advance p).after o) = (job.announces (.input (.advance p))).foldl max
      (job.mark o) := by
  have hmarks : ((job.advance p).after o).marks = (max o.progress p, o.forwarded) :=
    of_running_after (P := fun o' => o'.marks = (max o.progress p, o.forwarded))
      (fun _ => job.leads_reach_marks p o) hrun
  obtain ⟨hprogress, hforwarded⟩ := Prod.mk.inj hmarks
  unfold mark announces
  cases job.settings.val.domain with
  | event => exact hprogress
  | processing => exact hforwarded

theorem mark_watermark (w : Watermark) (hrun : ((job.watermark w).after o).status = .running) :
    job.mark ((job.watermark w).after o) = max (job.mark o) w.timestamp := by
  cases hdomain : job.settings.val.domain with
  | event =>
    rw [job.after_watermark hdomain] at hrun ⊢
    rw [job.mark_advance w.timestamp hrun, announces, hdomain]
    rfl
  | processing =>
    refine of_running_after (P := fun o' => job.mark o' = _) (fun _ => leads_get ?_) hrun
    rw [max_eq]
    simp only [mark, hdomain]
    split
    · exact leads_set rfl
    · rfl

theorem mark_tick (t : Timestamp) (hrun : ((job.tick t).after o).status = .running) :
    job.mark ((job.tick t).after o) = job.mark o := by
  refine of_running_after (P := fun o' => job.mark o' = job.mark o) (fun _ => ?_) hrun
  cases hdomain : job.settings.val.domain with
  | event => rfl
  | processing =>
    have hmark : ∀ o', job.mark o' = o'.forwarded := fun o' => by simp only [mark, hdomain]
    refine leads_get ?_
    split
    · refine leads_set ((job.leads_reach_marks t _).mono (fun _ o' h => ?_) fun o' h => ?_) <;>
        rw [hmark, hmark, (Prod.mk.inj h).2]
    · rfl

/-- A call after which the operator runs raises the mark to what it announces. -/
theorem mark_call (c : Call κ ν) (hrestore : ∀ bs, c ≠ .restore bs)
    (hrewind : ∀ values, c ≠ .rewind values)
    (hrun : ((job.call c).after o).status = .running) :
    job.mark ((job.call c).after o) = (job.announces c).foldl max (job.mark o) := by
  have hsame : ∀ {β : Type} {d : Command (Operator κ α ω) β},
      Keeps (fun _ o' => marks o' = o.marks) (fun o' => marks o' = o.marks) d →
      ((whileRunning d).after o).status = .running →
      job.mark ((whileRunning d).after o) = job.mark o := fun hd hrun =>
    job.mark_of_marks (of_running_after (P := fun o' => o'.marks = o.marks)
      (fun _ => hd o rfl) hrun)
  cases c with
  | input i =>
    cases i with
    | record now key t v =>
      rw [call, take, Command.after_map] at hrun ⊢
      exact job.mark_feed now key t v hrun
    | advance p =>
      rw [call, take, Command.after_map] at hrun ⊢
      exact job.mark_advance p hrun
    | watermark w =>
      rw [call, take, Command.after_map] at hrun ⊢
      exact job.mark_watermark w hrun
  | tick t =>
    rw [call, Command.after_map] at hrun ⊢
    exact job.mark_tick t hrun
  | prepare =>
    rw [call, Command.after_map] at hrun ⊢
    exact hsame (keeps_marks_onTable _) hrun
  | snapshot =>
    rw [call, Command.after_map] at hrun ⊢
    exact hsame ((keeps_marks_onTable _).bind fun _ => keeps_get fun _ => keeps_pure _) hrun
  | restore bs => exact absurd rfl (hrestore bs)
  | rewind values => exact absurd rfl (hrewind values)
  | close =>
    rw [call, Command.after_map, status_after_close] at hrun
    cases hrun

/-- A watermark is answered with the higher of itself and the mark. -/
theorem watermark_eq {w w' : Watermark} (h : job.watermark w o = .ok w' o') :
    w'.timestamp = max (job.mark o) w.timestamp := by
  have hstep := step_of_ok h
  rw [max_eq]
  unfold mark
  cases hdomain : job.settings.val.domain with
  | event =>
    simp only [hdomain, Command.run_bind, Command.run_get] at hstep
    split at hstep
    · next hnews =>
      rw [if_pos hnews]
      cases hreach : job.reach w.timestamp o with
      | ok x o₁ =>
        rw [Command.run_bind, hreach] at hstep
        rw [← (EStateM.Result.ok.inj hstep).1]
      | error e o₁ =>
        rw [Command.run_bind, hreach] at hstep
        cases hstep
    · next hold =>
      rw [if_neg hold, ← (EStateM.Result.ok.inj hstep).1]
  | processing =>
    simp only [hdomain, Command.run_bind, Command.run_get] at hstep
    split at hstep
    · next hnews => rw [if_pos hnews, ← (EStateM.Result.ok.inj hstep).1]
    · next hold => rw [if_neg hold, ← (EStateM.Result.ok.inj hstep).1]

end Job

/-! ### Starting over -/

namespace Operator

variable {κ α ω : Type} [Encoding α] {o o' d d' : Operator κ α ω} {bs : Bytes}

/-- An image tells the marks of the operator that it was taken of. -/
theorem exists_parse_snapshot (h : snapshot d = .ok bs d') :
    ∃ i, Image.parse bs = .ok i ∧ (i.progress, i.forwarded) = d.marks := by
  obtain ⟨state, d₁, hstate, hlast⟩ := ok_of_bind (step_of_ok h)
  have hmarks : d₁.marks = d.marks := (keeps_marks_onTable Table.snapshot d rfl).of_ok hstate
  obtain ⟨rfl, rfl⟩ := EStateM.Result.ok.inj hlast
  obtain ⟨front, hparse⟩ := Encoding.exists_parse_encode
    ⟨d₁.progress, d₁.lastTick, d₁.forwarded, state⟩
  exact ⟨_, hparse, hmarks⟩

/-- An operator that starts over takes up the marks of the image. -/
theorem marks_restore {i : Image} (hparse : Image.parse bs = .ok i)
    (h : restore bs o = .ok () o') : o'.marks = (i.progress, i.forwarded) := by
  obtain ⟨image, o₁, himage, h⟩ := ok_of_bind (step_of_ok h)
  rw [hparse] at himage
  obtain ⟨rfl, rfl⟩ := EStateM.Result.ok.inj himage
  obtain ⟨_, o₂, _, h⟩ := ok_of_bind h
  obtain ⟨_, o₃, _, h⟩ := ok_of_bind h
  obtain ⟨entries, o₄, _, hlast⟩ := ok_of_bind h
  rw [← (EStateM.Result.ok.inj hlast).2]
  rfl

end Operator

/-! ### Histories -/

namespace Answer

/-- The watermark of an answer, if it is one. -/
def passedOn : Except Error Answer → List Timestamp
  | .ok (watermark w) => [w.timestamp]
  | _ => []

end Answer

namespace Job

open Operator Timestamp

variable {κ ν α ω : Type} [Encoding κ] [Encoding α] {job : Job κ ν α ω}
  {told passed : List Timestamp} {o o' : Operator κ α ω}

/-- An operator of `job` was told these times and passed on these watermarks, itself or before it
started over from the image of one that had. Starting over is meant no other way, and progress is
not set by hand. -/
inductive Forwards (job : Job κ ν α ω) :
    List Timestamp → List Timestamp → Operator κ α ω → Prop
  | start (collector : Collector (Emission κ ω)) (faults : FaultPlan)
    (drains : List (DrainOrder α)) : Forwards job [] [] (job.start collector faults drains)
  | call {told passed : List Timestamp} {o : Operator κ α ω} (h : Forwards job told passed o)
    (c : Call κ ν) (hrestore : ∀ bs, c ≠ .restore bs) (hrewind : ∀ values, c ≠ .rewind values) :
    Forwards job (told ++ job.announces c) (passed ++ Answer.passedOn ((job.call c).answer o))
      ((job.call c).after o)
  | resume {told passed : List Timestamp} {d d' o o' : Operator κ α ω} {bs : Bytes}
    (h : Forwards job told passed d) (hbs : d.snapshot = .ok bs d')
    (hrestore : o.restore bs = .ok () o') : Forwards job told passed o'

/-- Only watermarks are passed on. -/
theorem passedOn_call (job : Job κ ν α ω) (c : Call κ ν) (o : Operator κ α ω) :
    Answer.passedOn ((job.call c).answer o) = [] ∨
      ∃ w w' o', c = .input (.watermark w) ∧ job.watermark w o = .ok w' o' ∧
        Answer.passedOn ((job.call c).answer o) = [w'.timestamp] := by
  have hnone : ∀ {β : Type} (d : Command (Operator κ α ω) β) (f : β → Answer),
      (∀ x w, f x ≠ .watermark w) → Answer.passedOn ((f <$> d).answer o) = [] := by
    intro β d f hf
    rw [Command.answer_map]
    cases d.answer o with
    | ok x =>
      show Answer.passedOn (.ok (f x)) = []
      cases hx : f x with
      | watermark w => exact absurd hx (hf x w)
      | _ => rfl
    | error e => rfl
  cases c with
  | input i =>
    cases i with
    | watermark w =>
      rw [call, take, Command.answer_map]
      cases hanswer : (job.watermark w).answer o with
      | ok w' =>
        obtain ⟨o', h⟩ := answer_eq_ok.1 hanswer
        exact .inr ⟨w, w', o', rfl, h, rfl⟩
      | error e => exact .inl rfl
    | _ => exact .inl (hnone _ _ (by simp))
  | _ => exact .inl (hnone _ _ (by simp))

/-- What was passed on ascends, up to the highest time that the operator was told; a running
operator holds that one as its mark. -/
structure Stands (job : Job κ ν α ω) (told passed : List Timestamp) (o : Operator κ α ω) :
    Prop where
  ascending : passed.Pairwise (· ≤ ·)
  le : ∀ t ∈ passed, t ≤ highest told
  mark : o.status = .running → job.mark o = highest told

theorem Stands.watermark (h : job.Stands told passed o) {w w' : Watermark}
    (hw : job.watermark w o = .ok w' o') : w'.timestamp = highest (told ++ [w.timestamp]) := by
  rw [job.watermark_eq hw, h.mark (running_of_ok hw)]
  exact (highest_append told [w.timestamp]).symm

theorem Stands.call (h : job.Stands told passed o) (c : Call κ ν) (hrestore : ∀ bs, c ≠ .restore bs)
    (hrewind : ∀ values, c ≠ .rewind values) :
    job.Stands (told ++ job.announces c) (passed ++ Answer.passedOn ((job.call c).answer o))
      ((job.call c).after o) := by
  have hmark : ((job.call c).after o).status = .running →
      job.mark ((job.call c).after o) = highest (told ++ job.announces c) := by
    intro hrun
    have horun : o.status = .running := by
      by_contra hidle
      exact (job.idle_call c hidle).2 hrun
    rw [job.mark_call c hrestore hrewind hrun, h.mark horun, highest_append]
  have hle : ∀ t ∈ passed, t ≤ highest (told ++ job.announces c) := fun t ht =>
    Int64.le_trans (h.le t ht) (highest_le_append _ _)
  rcases passedOn_call job c o with hnone | ⟨w, w', o', rfl, hw, hone⟩
  · rw [hnone, List.append_nil]
    exact ⟨h.ascending, hle, hmark⟩
  · have hw' := h.watermark hw
    rw [hone]
    refine ⟨List.pairwise_append.2 ⟨h.ascending, List.pairwise_singleton _ _, fun t ht u hu => ?_⟩,
      fun t ht => ?_, hmark⟩
    · obtain rfl := List.mem_singleton.1 hu
      rw [hw']
      exact hle t ht
    · rcases List.mem_append.1 ht with ht | ht
      · exact hle t ht
      · obtain rfl := List.mem_singleton.1 ht
        rw [hw']
        exact Int64.le_refl _

theorem Forwards.stands (h : job.Forwards told passed o) : job.Stands told passed o := by
  induction h with
  | start collector faults drains =>
    refine ⟨.nil, nofun, fun _ => ?_⟩
    unfold mark
    cases job.settings.val.domain <;> rfl
  | call h c hrestore hrewind ih => exact ih.call c hrestore hrewind
  | resume h hbs hrestore ih =>
    obtain ⟨i, hparse, hmarks⟩ := exists_parse_snapshot hbs
    refine ⟨ih.ascending, ih.le, fun _ => ?_⟩
    rw [← ih.mark (running_of_ok hbs)]
    exact job.mark_of_marks ((marks_restore hparse hrestore).trans hmarks)

/-- The watermarks that are passed on never fall back, also not when an operator starts over from
an image: each is the highest time told so far. In processing time, where only watermarks tell of a
time, they change neither progress nor what waits or was emitted. -/
theorem watermarks_never_regress (h : job.Forwards told passed o) :
    passed.Pairwise (· ≤ ·) ∧
    (∀ w w' o', job.watermark w o = .ok w' o' →
      IsGreatest {t | t ∈ told ++ [w.timestamp]} w'.timestamp ∧
      ∀ t ∈ passed, t ≤ w'.timestamp) ∧
    (job.settings.val.domain = .processing → ∀ w, SameButMarks ((job.watermark w).after o) o) := by
  have hstands := h.stands
  refine ⟨hstands.ascending, fun w w' o' hw => ?_,
    fun hdomain w => sameButMarks_watermark hdomain w sameButMarks_rfl⟩
  rw [hstands.watermark hw]
  exact ⟨isGreatest_highest (by simp),
    fun t ht => Int64.le_trans (hstands.le t ht) (highest_le_append told [w.timestamp])⟩

/-- An operator is told of 5 and 9 and passes on 5. Another one starts over from its image; told of
7, it passes on 9. In processing time a watermark leaves a waiting window alone. -/
theorem watermarks_resumed :
    let policy : SoundPolicy := ⟨{ shape := .tumbling 10 }, by decide⟩
    let job := wrappingSums policy
    let d := job.through (job.start {}) [.input (.watermark ⟨5⟩), .input (.advance 9)]
    let o := (Operator.restore ((Operator.snapshot.answer d).toOption.getD [])).after (job.start {})
    let clocked := clockedSums policy
    let c := (clocked.call (.input (.record 5 1 1 7))).after (clocked.start {})
    (job.Forwards [5, 9] [5] o ∧ ∃ o', job.watermark ⟨7⟩ o = .ok ⟨9⟩ o' ∧
      IsGreatest {t : Timestamp | t ∈ [5, 9, 7]} 9) ∧
    clocked.Forwards [] [] c ∧ c.agenda.size = 1 ∧
      SameButMarks ((clocked.watermark ⟨8⟩).after c) c := by
  intro policy job d o clocked c
  have hstart : job.Forwards [] [] (job.start {}) := .start {} .none []
  have hfirst := hstart.call (.input (.watermark ⟨5⟩)) nofun nofun
  have hfive : Answer.passedOn ((job.call (.input (.watermark ⟨5⟩))).answer (job.start {})) = [5] :=
    by decide +kernel
  rw [hfive] at hfirst
  have hd := hfirst.call (.input (.advance 9)) nofun nofun
  rw [(passedOn_call job _ _).resolve_right fun ⟨_, _, _, he, _⟩ => nomatch he] at hd
  have ho : job.Forwards [5, 9] [5] o :=
    hd.resume (Command.run_of_answer (by decide +kernel))
      (Command.run_of_answer (by decide +kernel))
  have hstart' : clocked.Forwards [] [] (clocked.start {}) := .start {} .none []
  have hc := hstart'.call (.input (.record 5 1 1 7)) nofun nofun
  rw [(passedOn_call clocked _ _).resolve_right fun ⟨_, _, _, he, _⟩ => nomatch he] at hc
  have hw : job.watermark ⟨7⟩ o = .ok ⟨9⟩ ((job.watermark ⟨7⟩).after o) :=
    Command.run_of_answer (by decide +kernel)
  exact ⟨⟨ho, _, hw, ((watermarks_never_regress ho).2.1 _ _ _ hw).1⟩, hc, by decide +kernel,
    (watermarks_never_regress hc).2.2 rfl ⟨8⟩⟩

end Job

end Tidemark
