import Tidemark.Proofs.Operator.Onward

/-! No window is left behind. Once progress was announced, nothing that it reaches waits any longer,
unless the announcement was no news. Old progress is taken for reached, and it is, as long as nobody
set progress by hand to where it would have reached something. -/

namespace Tidemark

namespace Operator

variable {κ ν α ω : Type} [Encoding κ] [Encoding α] {o : Operator κ α ω} {p q : Timestamp}

omit [Encoding κ] [Encoding α] in
theorem NoneDue.mono (h : o.NoneDue p) (hq : q ≤ p) : o.NoneDue q :=
  fun t ht => Int64.lt_of_le_of_lt hq (h t ht)

/-- A callback was noted. -/
theorem Intact.noted {p : Policy} (h : o.Intact p) (t : Timestamp) :
    ({ o with lastTick := t } : Operator κ α ω).Intact p := by
  obtain ⟨plan, admission, o₀, hsound, h⟩ := h
  exact ⟨plan, admission, { o₀ with lastTick := t }, hsound.of_eq rfl fun _ => rfl,
    { h with lastTick := rfl }⟩

end Operator

namespace Job

open Operator

variable {κ ν α ω : Type} [Encoding κ] [Encoding α] [LawfulEncoding α] {job : Job κ ν α ω}
  {allowed : Operator κ α ω → Timestamp → Prop} {o o' : Operator κ α ω} {q : Timestamp}

/-- Nothing that new progress reaches is left. -/
theorem noneDue_of_reach (h : o.Intact job.policy.val) (hq : o.progress < q)
    (hreach : job.reach q o = .ok () o') : o'.progress = q ∧ o'.NoneDue q := by
  obtain ⟨_, _, o₀, hsound, h⟩ := h
  obtain ⟨o₀', hreach₀, h'⟩ := (job.performs_tracked.reach q).exists_ok h hreach
  have hspec : Ensures (job.reach q) o₀ True _ := job.ensures_reach hsound q fun _ => trivial
  unfold Ensures at hspec
  rw [hreach₀] at hspec
  dsimp only at hspec
  rw [if_pos (h.sameClocks.progress ▸ hq)] at hspec
  have hdue : o₀'.NoneDue q := hspec.2.noneDue hspec.1
  refine ⟨h'.sameClocks.progress.symm.trans hspec.2.progress, fun t ht => hdue t ?_⟩
  exact h'.agenda ▸ ht

/-- Announced progress is reached, unless it is old: then nothing happens. -/
theorem ReachedWithin.noneDue_or_old (h : job.ReachedWithin allowed o)
    (hadvance : job.advance q o = .ok () o') :
    o'.progress = q ∧ o'.NoneDue q ∨ q ≤ o.progress ∧ o' = o := by
  have hreach := step_of_ok hadvance
  by_cases hq : o.progress < q
  · exact .inl (noneDue_of_reach (h.intact (running_of_ok hadvance)) hq hreach)
  · rw [job.reach_of_le hq] at hreach
    exact .inr ⟨Int64.not_lt.1 hq, (EStateM.Result.ok.inj hreach).2.symm⟩

/-- A clock callback is reached, unless it is old or progress is ahead of it: then nothing fires. -/
theorem ReachedWithin.noneDue_or_old_tick (hdomain : job.settings.val.domain = .processing)
    (h : job.ReachedWithin allowed o) (htick : job.tick q o = .ok () o') :
    o'.progress = q ∧ o'.NoneDue q ∨
      (q ≤ o.lastTick ∨ q ≤ o.progress) ∧ o'.agenda = o.agenda := by
  have hstep := step_of_ok htick
  simp only [hdomain, Command.run_bind, Command.run_get] at hstep
  split at hstep
  · have hnoted := (h.intact (running_of_ok htick)).noted q
    rw [Command.run_bind, Command.run_set] at hstep
    by_cases hq : o.progress < q
    · exact .inl (noneDue_of_reach hnoted hq hstep)
    · have hsame := hstep.symm.trans (job.reach_of_le (o := { o with lastTick := q }) hq)
      rw [(EStateM.Result.ok.inj hsame).2]
      exact .inr ⟨.inr (Int64.not_lt.1 hq), rfl⟩
  · next hold =>
    rw [← (EStateM.Result.ok.inj hstep).2]
    exact .inr ⟨.inl (Int64.not_lt.1 hold), rfl⟩

/-- When progress is set by hand only to where nothing is due, everything waits beyond progress. -/
theorem ReachedWithin.noneDue (hallowed : ∀ o p, allowed o p → o.NoneDue p)
    (h : job.ReachedWithin allowed o) (hrun : o.status = .running) : o.NoneDue o.progress :=
  h.invariant (I := fun o => o.NoneDue o.progress) (fun job c f d => job.noneDue_start c f d _)
    (fun _ _ hon => hon.noneDue) hallowed hrun

/-- When progress is not set by hand to before the last callback, the clock is not ahead of it. -/
theorem ReachedWithin.lastTick_le (hallowed : ∀ o p, allowed o p → o.lastTick ≤ p)
    (h : job.ReachedWithin allowed o) (hrun : o.status = .running) : o.lastTick ≤ o.progress :=
  h.invariant (I := fun o => o.lastTick ≤ o.progress) (fun _ _ _ _ => Int64.le_refl _)
    (fun _ _ hon => hon.lastTick_le) hallowed hrun

/-- An announcement that is answered leaves no window that it reaches, in every run, unless it was
old. Where progress is set by hand only to what reaches no waiting window, nothing waits that is late,
and old announcements leave nothing either; nor do old callbacks where, moreover, progress is not set
to before the last of them. -/
theorem punctual (job : Job κ ν α ω) :
    (∀ o, job.ReachedWithin (fun _ _ => True) o → ∀ q o',
      (job.advance q o = .ok () o' →
        o'.progress = q ∧ o'.NoneDue q ∨ q ≤ o.progress ∧ o' = o) ∧
      (job.settings.val.domain = .processing → job.tick q o = .ok () o' →
        o'.progress = q ∧ o'.NoneDue q ∨
          (q ≤ o.lastTick ∨ q ≤ o.progress) ∧ o'.agenda = o.agenda)) ∧
    (∀ o, job.ReachedWithin (fun o p => o.NoneDue p) o →
      (o.status = .running →
        ∀ t ∈ o.agenda.queue, ¬ job.policy.val.isLate t.slot.window o.progress) ∧
      ∀ q o', job.advance q o = .ok () o' → o'.NoneDue q) ∧
    (job.settings.val.domain = .processing →
      ∀ o, job.ReachedWithin (fun o p => o.NoneDue p ∧ o.lastTick ≤ p) o →
        ∀ q o', job.tick q o = .ok () o' → o'.NoneDue q) := by
  refine ⟨fun o h q o' => ⟨h.noneDue_or_old, fun hdomain => h.noneDue_or_old_tick hdomain⟩,
    fun o h => ⟨fun hrun t ht => ?_, fun q o' hadvance => ?_⟩,
    fun hdomain o h q o' htick => ?_⟩
  · have hlt := h.noneDue (fun _ _ h => h) hrun t ht
    obtain ⟨_, _, o₀, hsound, hsame⟩ := h.intact hrun
    have hfire := hsound.fireAt_eq (hsame.agenda ▸ ht)
    rw [Policy.isLate, decide_eq_true_eq, Int64.not_le, ← hfire]
    exact hlt
  · have hrun := running_of_ok hadvance
    rcases h.noneDue_or_old hadvance with ⟨_, hdue⟩ | ⟨hold, rfl⟩
    · exact hdue
    · exact (h.noneDue (fun _ _ h => h) hrun).mono hold
  · have hrun := running_of_ok htick
    rcases h.noneDue_or_old_tick hdomain htick with ⟨_, hdue⟩ | ⟨hold, hagenda⟩
    · exact hdue
    · have hle : q ≤ o.progress := by
        rcases hold with hold | hold
        · exact Int64.le_trans hold (h.lastTick_le (fun _ _ h => h.2) hrun)
        · exact hold
      intro t ht
      exact (h.noneDue (fun _ _ h => h.1) hrun).mono hle t (hagenda ▸ ht)

/-- Sums in processing time. -/
def clockedSums (policy : SoundPolicy) : Job Int64 Int64 Int64 Int64 :=
  ⟨policy, .wrappingSum, ⟨{ domain := .processing }, by decide⟩⟩

/-- A window ends at 10, and progress is set to 100 by hand: announcing 50 leaves the window. In
processing time the callback 50 leaves it when it comes after the callback 100, though progress was
set to 0 in between. -/
theorem due_left_behind :
    let policy : SoundPolicy := ⟨{ shape := .tumbling 10 }, by decide⟩
    let job := wrappingSums policy
    let fed := (job.call (.input (.record 0 1 1 7))).after (job.start {})
    let o := (job.call (.rewind [100])).after fed
    let clocked := clockedSums policy
    let set := (clocked.call (.rewind [0])).after ((clocked.call (.tick 100)).after (clocked.start {}))
    let c := (clocked.call (.input (.record 5 1 1 7))).after set
    (job.ReachedWithin (fun _ _ => True) o ∧
      ∃ o', job.advance 50 o = .ok () o' ∧ ¬ o'.NoneDue 50) ∧
    (clocked.ReachedWithin (fun _ _ => True) c ∧
      ∃ c', clocked.tick 50 c = .ok () c' ∧ ¬ c'.NoneDue 50) := by
  intro policy job fed o clocked set c
  have hleft : ∀ {d : Command (Operator Int64 Int64 Int64) Unit} {o : Operator Int64 Int64 Int64},
      (d.answer o).toOption = some () →
      (d.after o).agenda.fireAt? ⟨encode (1 : Int64), ⟨0, 10⟩⟩ = some 9 →
      ∃ o', d o = .ok () o' ∧ ¬ o'.NoneDue 50 := by
    intro d o hok hwaits
    refine ⟨d.after o, Command.run_of_answer hok, fun hdue => ?_⟩
    have hlt : (50 : Timestamp) < 9 := hdue ⟨_, 9⟩ (Agenda.mem_queue.2 hwaits)
    exact absurd hlt (by decide)
  have hstart : job.ReachedWithin (fun _ _ => True) (job.start {}) := .start job {} .none []
  have hstart' : clocked.ReachedWithin (fun _ _ => True) (clocked.start {}) := .start clocked {} .none []
  have hfed := hstart.forward (.input (.record 0 1 1 7)) (faithful 1)
  have hset := (hstart'.forward (.tick 100) trivial).rewind [0] fun _ _ _ => trivial
  exact ⟨⟨hfed.rewind [100] fun _ _ _ => trivial, hleft (by decide +kernel) (by decide +kernel)⟩,
    hset.forward (.input (.record 5 1 1 7)) (faithful 1),
    hleft (by decide +kernel) (by decide +kernel)⟩

/-- A window ends at 10 and progress is set to 5 by hand, where nothing is due. -/
theorem punctual_tumbling :
    let policy : SoundPolicy := ⟨{ shape := .tumbling 10 }, by decide⟩
    let job := wrappingSums policy
    let fed := (job.call (.input (.record 0 1 1 7))).after (job.start {})
    let o := (job.call (.rewind [5])).after fed
    o.agenda.fireAt? ⟨encode (1 : Int64), ⟨0, 10⟩⟩ = some 9 ∧
      ∃ o', job.advance 50 o = .ok () o' ∧ o'.NoneDue 50 := by
  intro policy job fed o
  have hfirst : fed.NoneDue 5 := by
    intro t ht
    rw [← Std.ExtTreeSet.mem_toList] at ht
    revert t
    decide +kernel
  have hstart : job.ReachedWithin (fun o p => o.NoneDue p) (job.start {}) := .start job {} .none []
  have hreached : job.ReachedWithin (fun o p => o.NoneDue p) o := by
    refine (hstart.forward (.input (.record 0 1 1 7)) (faithful 1)).rewind [5] fun _ p hp => ?_
    obtain rfl : 5 = p := by simpa using hp
    exact hfirst
  have hok : job.advance 50 o = .ok () ((job.advance 50).after o) :=
    Command.run_of_answer (by decide +kernel)
  exact ⟨by decide +kernel, _, hok, ((punctual job).2.1 o hreached).2 50 _ hok⟩

end Job

end Tidemark
