import Tidemark.Proofs.Operator.Onward
import Tidemark.Proofs.Operator.Arrivals
import Tidemark.Proofs.Table.Confluence

/-! Arrival order. Between two announcements of progress the order of the records does not matter,
as long as the aggregate is a commutative monoid: every record fares the same, and what the operator
holds, and whatever it shows from then on, is the same. -/

namespace Tidemark

/-- A record, without the clock time at which it arrives. -/
structure Record (κ ν : Type) where
  key : κ
  time : Timestamp
  payload : ν

namespace Record

variable {κ ν : Type}

/-- The record arrives at clock time `now`. -/
def input (now : Timestamp) (r : Record κ ν) : Input κ ν := .record now r.key r.time r.payload

/-- Records with the clock times at which they arrive. -/
def inputs (rs : List (Timestamp × Record κ ν)) : List (Input κ ν) := rs.map fun r => r.2.input r.1

/-- How a record fares at some progress. -/
def outcome (p : Policy) (progress : Timestamp) (r : Record κ ν) : Except Error Answer :=
  match p.windowsAt r.time with
  | none => .error (.offTheLine r.time)
  | some around =>
    if around.filter (!p.isLate · progress) = [] then .ok (.outcome .dropped)
    else .ok (.outcome .accepted)

/-- What the table takes in for a record at some progress. -/
def intakes [Encoding κ] (p : Policy) (progress : Timestamp) (r : Record κ ν) : List (Intake ν) :=
  (((p.windowsAt r.time).getD []).filter (!p.isLate · progress)).map
    fun w => ⟨encode r.key, r.payload, w⟩

theorem fit_intakes [Encoding κ] {p : Policy} (hp : p.flaw? = none) (progress : Timestamp)
    {r : Record κ ν} (hkey : Encoding.Faithful r.key) :
    ∀ i ∈ r.intakes p progress, i.Fit κ p := by
  intro i hi
  obtain ⟨w, hw, rfl⟩ := List.mem_map.1 hi
  refine ⟨⟨r.key, hkey, rfl⟩, fun _ => ?_⟩
  have haround := (List.mem_filter.1 hw).1
  cases hws : p.windowsAt r.time with
  | none => simp [hws] at haround
  | some around =>
    rw [hws] at haround
    exact (Policy.windowsAt_spec hp hws).2 w haround

end Record

namespace Operator

variable {κ ν α ω : Type} [Encoding κ] [Encoding α] {o o₁ o₂ o₃ : Operator κ α ω}

omit [Encoding κ] [Encoding α] in
theorem Ensures.and {β : Type} {c : Command (Operator κ α ω) β} {cause : Prop}
    {post post' : β → Operator κ α ω → Prop} (h : Ensures c o cause post)
    (h' : Ensures c o cause post') : Ensures c o cause fun x o' => post x o' ∧ post' x o' := by
  unfold Ensures at h h' ⊢
  cases hc : c o with
  | ok x o' =>
    rw [hc] at h h'
    exact ⟨h, h'⟩
  | error e o' =>
    rw [hc] at h
    exact h

/-- The payloads `is` went into the table, and apart from it and the timers nothing changed but the
count of drops. -/
structure Takes (p : Policy) (g : Aggregate ν α ω) (is : List (Intake ν)) (o o' : Operator κ α ω) :
    Prop where
  sound : o'.Sound p
  contents : Ledger.takeAll p g o.table.contents is = .ok o'.table.contents
  progress : o'.progress = o.progress
  lastTick : o'.lastTick = o.lastTick
  forwarded : o'.forwarded = o.forwarded
  status : o'.status = o.status
  collector : o'.collector = o.collector

variable {p : Policy} {g : Aggregate ν α ω} {is js : List (Intake ν)}

theorem takes_nil (h : o.Sound p) : Takes p g [] o o := ⟨h, rfl, rfl, rfl, rfl, rfl, rfl⟩

theorem Takes.append (h : Takes p g is o₁ o₂) (h' : Takes p g js o₂ o₃) :
    Takes p g (is ++ js) o₁ o₃ := by
  refine ⟨h'.sound, ?_, h'.progress.trans h.progress, h'.lastTick.trans h.lastTick,
    h'.forwarded.trans h.forwarded, h'.status.trans h.status, h'.collector.trans h.collector⟩
  rw [Ledger.takeAll, List.foldlM_append]
  have hfirst := h.contents
  rw [Ledger.takeAll] at hfirst
  rw [hfirst]
  exact h'.contents

end Operator

namespace Job

open Operator

variable {κ ν α ω : Type} [Encoding κ] [Encoding α] [LawfulEncoding α] (job : Job κ ν α ω)
  {o : Operator κ α ω}

/-- A payload is taken in. -/
theorem ensures_accumulate_takes (hg : job.aggregate.Monoidal) (h : o.Sound job.policy.val)
    {i : Intake ν} (hi : i.Fit κ job.policy.val) :
    Ensures (job.accumulate i.key i.payload i.candidate) o False fun _ o' =>
      Takes job.policy.val job.aggregate [i] o o' := by
  have herr : ∀ e, Ledger.accumulate job.policy.val job.aggregate i.key i.payload i.candidate
      o.table.contents = .error e → False := by
    intro e he
    obtain ⟨_, single, hmul⟩ := hg.exists_multiplies
    obtain ⟨cs, hrun, _⟩ := Ledger.exists_takeIn hmul h.cells hi
    rw [Ledger.takeIn, he] at hrun
    cases hrun
  have htotal : ¬ job.aggregate.Total → False := fun hn => hn hg.toTotal
  refine ((job.ensures_accumulate i.key i.payload i.candidate h.readable herr).and
    (job.ensures_accumulate_sound h hi.key i.payload hi.proper rfl htotal)).mono ?_
  rintro _ _ ⟨⟨m, table, hrun, _, rfl⟩, hsound, hsame, _⟩
  refine ⟨hsound, ?_, hsame.progress, rfl, rfl, rfl, rfl⟩
  rw [Ledger.takeAll, List.foldlM_cons, Ledger.takeIn, hrun]
  rfl

/-- So is the payload of a record, in each of its live windows. -/
theorem ensures_forM_accumulate_takes (hg : job.aggregate.Monoidal) (h : o.Sound job.policy.val)
    (key : Bytes) (v : ν) {ws : List Window}
    (hfit : ∀ w ∈ ws, (⟨key, v, w⟩ : Intake ν).Fit κ job.policy.val) :
    Ensures (ws.forM (job.accumulate key v)) o False fun _ o' =>
      Takes job.policy.val job.aggregate (ws.map fun w => ⟨key, v, w⟩) o o' := by
  refine ensures_forM
    (fun fore o' => Takes job.policy.val job.aggregate (fore.map fun w => ⟨key, v, w⟩) o o') ?_
    (takes_nil h)
  intro fore w rest hl o' h'
  refine (job.ensures_accumulate_takes hg h'.sound (hfit w (by simp [hl]))).mono fun _ o'' h'' => ?_
  rw [List.map_append]
  exact h'.append h''

/-- In event time a record fares as its time and progress say, and its payload is taken in. -/
theorem take_record (hdomain : job.settings.val.domain = .event) (hg : job.aggregate.Monoidal)
    (h : o.Sound job.policy.val) (hrun : o.status = .running) (now : Timestamp) {r : Record κ ν}
    (hkey : Encoding.Faithful r.key) :
    (job.take (r.input now)).answer o = r.outcome job.policy.val o.progress ∧
      Takes job.policy.val job.aggregate (r.intakes job.policy.val o.progress) o
        ((job.take (r.input now)).after o) := by
  have hfit := r.fit_intakes job.policy.property o.progress hkey
  unfold Record.outcome
  unfold Record.intakes at hfit ⊢
  obtain ⟨key, t, v⟩ := r
  unfold Record.input Command.answer Command.after
  have hstamp : job.stamp now t = t := stamp_event hdomain now t
  cases hw : job.policy.val.windowsAt t with
  | none =>
    rw [← hstamp] at hw
    rw [take_of_feed_error (job.feed_offTheLine hrun hw key v), hstamp]
    exact ⟨rfl, takes_nil h⟩
  | some around =>
    rw [hw] at hfit
    rw [← hstamp] at hw
    by_cases hlive : job.liveAt o around = []
    · rw [take_of_feed_ok (job.feed_late hrun hw hlive key v)]
      unfold liveAt at hlive
      simp only [hlive, Option.getD_some, List.map_nil, if_true]
      exact ⟨trivial, h.of_eq rfl fun _ => rfl, rfl, rfl, rfl, rfl, rfl, rfl⟩
    · have hfitLive : ∀ w ∈ job.liveAt o around,
          (⟨encode key, v, w⟩ : Intake ν).Fit κ job.policy.val :=
        fun w hmem => hfit _ (List.mem_map_of_mem hmem)
      obtain ⟨⟨⟩, o', hloop, htakes⟩ :=
        (job.ensures_forM_accumulate_takes hg h (encode key) v hfitLive).exists_ok id
      have hfeed := job.feed_live hrun hw hlive key v
      rw [hloop] at hfeed
      rw [take_of_feed_ok hfeed]
      unfold liveAt at hlive
      simp only [if_neg hlive]
      exact ⟨trivial, htakes⟩

/-- So it is with many records: all of them find the same progress. -/
theorem take_records (hdomain : job.settings.val.domain = .event) (hg : job.aggregate.Monoidal)
    (h : o.Sound job.policy.val) (hrun : o.status = .running) {rs : List (Timestamp × Record κ ν)}
    (hkeys : ∀ r ∈ rs, Encoding.Faithful r.2.key) :
    job.answers o (Record.inputs rs) = rs.map (fun r => r.2.outcome job.policy.val o.progress) ∧
      Takes job.policy.val job.aggregate
        (rs.flatMap fun r => r.2.intakes job.policy.val o.progress) o
        (job.after o (Record.inputs rs)) := by
  induction rs generalizing o with
  | nil => exact ⟨rfl, takes_nil h⟩
  | cons r rs ih =>
    obtain ⟨hanswer, htakes⟩ := job.take_record hdomain hg h hrun r.1 (hkeys r (by simp))
    obtain ⟨hanswers, htakes'⟩ := ih htakes.sound (htakes.status.trans hrun)
      fun r' hr' => hkeys r' (by simp [hr'])
    rw [htakes.progress] at hanswers htakes'
    constructor
    · rw [List.map_cons, ← hanswer, ← hanswers]
      rfl
    · rw [List.flatMap_cons]
      exact htakes.append htakes'

end Job

namespace Operator

variable {κ ν α ω : Type} [Encoding κ] [Encoding α] [LawfulEncoding α] {p : Policy}
  {g : Aggregate ν α ω} {is js : List (Intake ν)} {o o₁ o₂ : Operator κ α ω}

/-- Operators that took in the same payloads, in whatever order, have the same contents. -/
theorem Takes.sameContents (hg : g.Monoidal) (h : o.Sound p) (hperm : is.Perm js)
    (hfit : ∀ i ∈ is, i.Fit κ p) (h₁ : Takes p g is o o₁) (h₂ : Takes p g js o o₂) :
    SameContents o.collector.items o.collector.items o₁ o₂ := by
  have hcontents : o₁.table.contents = o₂.table.contents := by
    refine Except.ok.inj (h₁.contents.symm.trans (Eq.trans ?_ h₂.contents))
    exact Ledger.takeAll_perm hg hperm hfit h.cells
  have hagenda : o₁.agenda = o₂.agenda :=
    Agenda.eq_of_fireAt? (h₁.progress.trans h₂.progress.symm) fun s => by
      rw [h₁.sound.timely, h₂.sound.timely, entryAt, entryAt, hcontents]
  refine ⟨⟨hagenda, h₁.lastTick.trans h₂.lastTick.symm, h₁.forwarded.trans h₂.forwarded.symm,
    h₁.status.trans h₂.status.symm, ?_, [], ?_, ?_⟩, h₁.sound.readable, h₂.sound.readable,
    hcontents⟩
  · rw [h₁.collector, h₂.collector]
  · rw [h₁.collector, List.append_nil]
  · rw [h₂.collector, List.append_nil]

end Operator

namespace Job

open Operator

variable {κ ν α ω : Type} [Encoding κ] [Encoding α] [LawfulEncoding α] {job : Job κ ν α ω}
  {allowed : Operator κ α ω → Timestamp → Prop} {o : Operator κ α ω}

/-- In event time, with a commutative aggregate and a store that refuses nothing any more, the same
records in any order fare the same, each of them, and leave a running operator with the same timers,
the same image, and the same to show in every run from then on. -/
theorem arrivals_commute (hdomain : job.settings.val.domain = .event)
    (hg : job.aggregate.Monoidal) (h : job.ReachedWithin allowed o) (hrun : o.status = .running)
    (hfaults : o.table.store.faults = .none) {rs ss : List (Timestamp × Record κ ν)}
    (hkeys : ∀ r ∈ rs, Encoding.Faithful r.2.key)
    (hperm : (rs.map Prod.snd).Perm (ss.map Prod.snd)) :
    job.answers o (Record.inputs rs) = rs.map (fun r => r.2.outcome job.policy.val o.progress) ∧
    job.answers o (Record.inputs ss) = ss.map (fun r => r.2.outcome job.policy.val o.progress) ∧
    let o₁ := job.after o (Record.inputs rs)
    let o₂ := job.after o (Record.inputs ss)
    o₁.status = .running ∧ o₂.status = .running ∧ o₁.agenda = o₂.agenda ∧
    (∃ bs, snapshot.answer o₁ = .ok bs ∧ snapshot.answer o₂ = .ok bs) ∧
    ∀ calls : List (Call κ ν), job.observations o₁ calls = job.observations o₂ calls := by
  have hsound := (h.intact hrun).sound hfaults
  have hkeys' : ∀ s ∈ ss, Encoding.Faithful s.2.key := by
    intro s hs
    obtain ⟨r, hr, he⟩ := List.mem_map.1 (hperm.mem_iff.2 (List.mem_map_of_mem hs))
    exact he ▸ hkeys r hr
  obtain ⟨hanswers, h₁⟩ := job.take_records hdomain hg hsound hrun hkeys
  obtain ⟨hanswers', h₂⟩ := job.take_records hdomain hg hsound hrun hkeys'
  have hintakes : (rs.flatMap fun r => r.2.intakes job.policy.val o.progress).Perm
      (ss.flatMap fun s => s.2.intakes job.policy.val o.progress) := by
    have hflat := hperm.flatMap_right fun r => r.intakes job.policy.val o.progress
    rwa [List.flatMap_map, List.flatMap_map] at hflat
  have hfit : ∀ i ∈ rs.flatMap fun r => r.2.intakes job.policy.val o.progress,
      i.Fit κ job.policy.val := by
    intro i hi
    obtain ⟨r, hr, hi⟩ := List.mem_flatMap.1 hi
    exact r.2.fit_intakes job.policy.property o.progress (hkeys r hr) i hi
  have hsame := Takes.sameContents hg hsound hintakes hfit h₁ h₂
  refine ⟨hanswers, hanswers', h₁.status.trans hrun, h₂.status.trans hrun, hsame.agenda, ?_,
    fun calls => job.observations_eq calls hsame.sameWhileRunning⟩
  obtain ⟨_, _, _, hsnap₁⟩ := exists_snapshot (h₁.status.trans hrun) h₁.sound.readable
  obtain ⟨_, _, _, hsnap₂⟩ := exists_snapshot (h₂.status.trans hrun) h₂.sound.readable
  refine ⟨_, Command.answer_eq_ok.2 ⟨_, hsnap₁⟩, ?_⟩
  rw [hsame.progress, hsame.lastTick, hsame.forwarded, hsame.contents]
  exact Command.answer_eq_ok.2 ⟨_, hsnap₂⟩

/-- Two sessions, and the record that joins them: between them, or after both. -/
theorem arrivals_commute_sessions :
    let job := wrappingSums ⟨{ shape := .session 10 }, by decide⟩
    let o := (job.call (.input (.advance 30))).after (job.start {})
    let a : Record Int64 Int64 := ⟨1, 40, 5⟩
    let b : Record Int64 Int64 := ⟨1, 55, 7⟩
    let c : Record Int64 Int64 := ⟨1, 48, 9⟩
    let late : Record Int64 Int64 := ⟨2, 3, 1⟩
    let o₁ := job.after o (Record.inputs [(0, a), (1, late), (2, c), (3, b)])
    let o₂ := job.after o (Record.inputs [(5, b), (6, a), (7, c), (8, late)])
    o₁.agenda.size = 1 ∧ o₁.agenda = o₂.agenda ∧
      ∀ calls : List (Call Int64 Int64), job.observations o₁ calls = job.observations o₂ calls := by
  intro job o a b c late o₁ o₂
  have h : job.ReachedWithin (fun _ _ => False) o := (ReachedWithin.start job {} .none []).forward _ trivial
  let rs : List (Timestamp × Record Int64 Int64) := [(0, a), (1, late), (2, c), (3, b)]
  let ss : List (Timestamp × Record Int64 Int64) := [(5, b), (6, a), (7, c), (8, late)]
  have hperm : (rs.map Prod.snd).Perm (ss.map Prod.snd) := by
    have hlast : ([a, late, c] ++ [b]).Perm ([b] ++ [a, late, c]) := List.perm_append_comm
    exact hlast.trans (.cons b (.cons a (.swap c late [])))
  have hkeys : ∀ r ∈ rs, Encoding.Faithful r.2.key := fun r _ => faithful r.2.key
  obtain ⟨_, _, _, _, hagenda, _, hobserve⟩ := arrivals_commute rfl
    Aggregate.monoidal_wrappingSum h (by decide +kernel) (by decide +kernel) hkeys hperm
  exact ⟨by decide +kernel, hagenda, hobserve⟩

end Job

end Tidemark
