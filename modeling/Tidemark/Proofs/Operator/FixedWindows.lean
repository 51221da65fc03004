import Tidemark.Proofs.Operator.Arrivals
import Tidemark.Proofs.Operator.Reached

/-! Windows that do not merge, against a plain reference. The payloads of a key and a window are
those that arrived before the window fired; a window that has fired and has payloads is emitted
once, with the result of folding them. -/

namespace Tidemark

namespace Arrival

variable {κ ν : Type}

/-- The record goes into a window of a key that has not fired. -/
def Counts (p : Policy) (k : κ) (w : Window) (a : Arrival κ ν) : Prop :=
  a.key = k ∧ w ∈ (p.windowsAt a.time).getD [] ∧ a.progress < p.firesAt w

instance [DecidableEq κ] (p : Policy) (k : κ) (w : Window) (a : Arrival κ ν) :
    Decidable (a.Counts p k w) := inferInstanceAs (Decidable (_ ∧ _ ∧ _))

end Arrival

namespace Policy

variable {κ ν : Type} [DecidableEq κ] (p : Policy) (inputs : List (Input κ ν))

/-- The payloads of a window of a key, in the order of arrival. -/
def payloads (k : κ) (w : Window) : List ν :=
  ((Input.arrivals inputs).filter (Arrival.Counts p k w ·)).map Arrival.payload

theorem payloads_of_record (now : Timestamp) (key : κ) (t : Timestamp) (v : ν) (k : κ)
    (w : Window) : p.payloads (inputs ++ [.record now key t v]) k w =
      if Arrival.Counts p k w ⟨Input.progressAfter inputs, key, t, v⟩
        then p.payloads inputs k w ++ [v] else p.payloads inputs k w := by
  rw [payloads, payloads, Input.arrivals_snoc]
  simp only [Input.arrival?, Option.toList_some, List.filter_append, List.map_append]
  by_cases h : Arrival.Counts p k w ⟨Input.progressAfter inputs, key, t, v⟩
  · simp [h]
  · simp [h]

theorem payloads_of_advance {i : Input κ ν} (hi : ∀ q, i.arrival? q = none) (k : κ) (w : Window) :
    p.payloads (inputs ++ [i]) k w = p.payloads inputs k w := by
  rw [payloads, payloads, Input.arrivals_snoc, hi, Option.toList_none, List.append_nil]

/-- Payloads come with keys that can be read back. -/
theorem faithful_of_payloads [Encoding κ] {inputs : List (Input κ ν)} (h : ∀ i ∈ inputs, i.Plain)
    {k : κ} {w : Window} (hne : p.payloads inputs k w ≠ []) : Encoding.Faithful k := by
  obtain ⟨v, hv⟩ := List.exists_mem_of_ne_nil _ hne
  obtain ⟨a, ha, _⟩ := List.mem_map.1 hv
  obtain ⟨hmem, hcounts⟩ := List.mem_filter.1 ha
  obtain ⟨rfl, _⟩ := of_decide_eq_true hcounts
  exact Input.faithful_of_arrivalsFrom h _ a hmem

end Policy

namespace Job

open Operator

variable {κ ν α ω : Type} [Encoding κ] [Encoding α] [LawfulEncoding α] {job : Job κ ν α ω}
  {o : Operator κ α ω} {cause : Prop}

/-- A payload went into each of the windows `ws` of a key on its own, and nowhere else. -/
structure Spreads (job : Job κ ν α ω) (key : Bytes) (v : ν) (ws : List Window)
    (o o' : Operator κ α ω) : Prop where
  sound : o'.Sound job.policy.val
  same : o.Undisturbed o'
  added : ∀ s : Slot, s.key = key ∧ s.window ∈ ws → ∃ acc,
    job.aggregate.add (((o.entryAt s).map Entry.acc).getD job.aggregate.create) v = .ok acc ∧
    o'.entryAt s = some ⟨acc, job.policy.val.firesAt s.window⟩
  others : ∀ s : Slot, ¬ (s.key = key ∧ s.window ∈ ws) → o'.entryAt s = o.entryAt s

omit [LawfulEncoding α] in
/-- One more window takes the payload in. -/
theorem Spreads.snoc {key : Bytes} {v : ν} {fore : List Window} {o' o'' : Operator κ α ω}
    (h : job.Spreads key v fore o o') {w : Window} (hnew : w ∉ fore)
    (hsound : o''.Sound job.policy.val) (hsame : o'.Undisturbed o'') {acc : α}
    (hadd : job.aggregate.add (((o'.entryAt ⟨key, w⟩).map Entry.acc).getD job.aggregate.create) v =
      .ok acc)
    (hgrows : job.policy.val.Grows key ⟨w, [w]⟩ acc o'.entryAt o''.entryAt) :
    job.Spreads key v (fore ++ [w]) o o'' := by
  have hsplit : ∀ s : Slot, s.key = key ∧ s.window ∈ fore ++ [w] ↔
      s = ⟨key, w⟩ ∨ s.key = key ∧ s.window ∈ fore := by
    rintro ⟨key', w'⟩
    simp only [Slot.mk.injEq, List.mem_append, List.mem_singleton]
    tauto
  have hleft : ∀ s : Slot, s ≠ ⟨key, w⟩ → o''.entryAt s = o'.entryAt s := fun s hs => by
    rw [hgrows s, if_neg hs, if_neg]
    rintro ⟨hk, hw⟩
    exact hs (by rw [← hk, ← List.mem_singleton.1 hw])
  refine ⟨hsound, h.same.trans hsame, fun s hs => ?_, fun s hs => ?_⟩
  · by_cases he : s = ⟨key, w⟩
    · rw [h.others ⟨key, w⟩ fun hw => hnew hw.2] at hadd
      rw [hgrows s, if_pos he, he]
      exact ⟨acc, hadd, rfl⟩
    · rw [hleft s he]
      exact h.added s (((hsplit s).1 hs).resolve_left he)
  · rw [hsplit, not_or] at hs
    rw [hleft s hs.1]
    exact h.others s hs.2

/-- Where windows do not merge, a payload goes into each window on its own. -/
theorem ensures_forM_accumulate_fixed (hm : ¬ job.policy.val.merges) (h : o.Sound job.policy.val)
    {key : Bytes} (hkey : KeyOf κ key) (v : ν) {ws : List Window} (hws : ws.Nodup)
    (hcause : ¬ job.aggregate.Total → cause) :
    Ensures (ws.forM (job.accumulate key v)) o cause fun _ => job.Spreads key v ws o := by
  refine ensures_forM (fun fore => job.Spreads key v fore o) ?_
    ⟨h, undisturbed_rfl, by simp, fun _ _ => rfl⟩
  rintro fore w rest hl o' h'
  have hsettle : job.policy.val.settle (o'.table.contents.live key) w = ⟨w, [w]⟩ := by
    rw [Policy.settle, if_neg hm]
  have hnew : w ∉ fore := fun hw => by
    rw [hl] at hws
    exact (List.disjoint_of_nodup_append hws) hw (by simp)
  refine (job.ensures_accumulate_sound h'.sound hkey v (fun hm' => absurd hm' hm) hsettle
    hcause).mono ?_
  rintro _ o'' ⟨hsound, hsame, acc, hacc, hgrows⟩
  rw [Aggregate.grow_of_combine (Ledger.combine_accs_singleton ..)] at hacc
  exact h'.snoc hnew hsound hsame hacc hgrows

variable [DecidableEq κ]

/-- An operator has emitted what the plain reference says, and has counted the dropped records of a
run in which the buffer was written in the orders `drains`. -/
structure Tallies (job : Job κ ν α ω) (drains : List (DrainOrder α)) (inputs : List (Input κ ν))
    (o : Operator κ α ω) : Prop where
  running : o.status = .running
  progress : o.progress = Input.progressAfter inputs
  dropped : o.drops.total =
    (job.answers (job.start {} .none drains) inputs).countP Answer.isDropped
  once : (o.collector.items.map fun e => (e.key, e.window)).Nodup
  emitted : ∀ e, e ∈ o.collector.items ↔ job.policy.val.firesAt e.window ≤ o.progress ∧
    job.policy.val.payloads inputs e.key e.window ≠ [] ∧
    job.aggregate.value (job.policy.val.payloads inputs e.key e.window) = .ok e.value

/-- An operator that was fed from the start on, with what it holds. -/
structure Follows (job : Job κ ν α ω) (drains : List (DrainOrder α)) (inputs : List (Input κ ν))
    (o : Operator κ α ω) : Prop extends job.Tallies drains inputs o where
  run : job.after (job.start {} .none drains) inputs = o
  sound : o.Sound job.policy.val
  admission : o.collector.admission = .always
  /-- An entry waits for each window that has payloads and has not fired. -/
  entry : ∀ k, Encoding.Faithful k → ∀ w e, o.entryAt ⟨encode k, w⟩ = some e ↔
    o.progress < job.policy.val.firesAt w ∧ job.policy.val.payloads inputs k w ≠ [] ∧
    e.fireAt = job.policy.val.firesAt w ∧
    job.aggregate.fold (job.policy.val.payloads inputs k w) = .ok e.acc

variable {drains : List (DrainOrder α)} {inputs : List (Input κ ν)} {i : Input κ ν}

omit [LawfulEncoding α] in
/-- The payloads of a window that has not fired are folded in its entry. -/
theorem Follows.fold_payloads (h : job.Follows drains inputs o) (ht : job.aggregate.Total) {k : κ}
    (hk : Encoding.Faithful k) {w : Window} (hw : o.progress < job.policy.val.firesAt w) :
    job.aggregate.fold (job.policy.val.payloads inputs k w) =
      .ok (((o.entryAt ⟨encode k, w⟩).map Entry.acc).getD job.aggregate.create) := by
  cases he : o.entryAt ⟨encode k, w⟩ with
  | some e => exact ((h.entry k hk w e).1 he).2.2.2
  | none =>
    by_cases hnil : job.policy.val.payloads inputs k w = []
    · rw [hnil]
      rfl
    · obtain ⟨acc, hacc⟩ := ht.fold (job.policy.val.payloads inputs k w)
      have hsome := (h.entry k hk w ⟨acc, job.policy.val.firesAt w⟩).2 ⟨hw, hnil, rfl, hacc⟩
      rw [he] at hsome
      cases hsome

omit [LawfulEncoding α] in
/-- An input that brings no payload and no news changes nothing but the count. -/
theorem Follows.idle (h : job.Follows drains inputs o) {drops : DropMeter}
    (hrun : (job.take i).after o = { o with drops })
    (hprogress : i.progress o.progress = o.progress)
    (hpayloads : ∀ k w, job.policy.val.payloads (inputs ++ [i]) k w =
      job.policy.val.payloads inputs k w)
    (hdrops : drops.total = o.drops.total + [(job.take i).answer o].countP Answer.isDropped) :
    job.Follows drains (inputs ++ [i]) { o with drops } where
  running := h.running
  progress := by
    rw [Input.progressAfter_snoc, ← h.progress, hprogress]
    rfl
  dropped := by
    rw [answers_snoc, List.countP_append, h.run, ← h.dropped, ← hdrops]
  once := h.once
  emitted e := by
    rw [hpayloads]
    exact h.emitted e
  run := by rw [after_snoc, h.run, hrun]
  sound := h.sound.of_eq rfl fun _ => rfl
  admission := h.admission
  entry k hk w e := by
    rw [hpayloads]
    exact h.entry k hk w e

omit [LawfulEncoding α] in
/-- A record counts for the windows of its key that have not fired. -/
theorem Follows.counts_iff (h : job.Follows drains inputs o) (key : κ) (t : Timestamp) (v : ν)
    (k : κ) (w : Window) :
    Arrival.Counts job.policy.val k w ⟨Input.progressAfter inputs, key, t, v⟩ ↔
      key = k ∧ w ∈ job.liveAt o ((job.policy.val.windowsAt t).getD []) := by
  rw [mem_liveAt, h.progress]
  rfl

omit [LawfulEncoding α] in
/-- An accepted record went into each of its windows that have not fired, and into nothing else. -/
theorem Follows.accepted (h : job.Follows drains inputs o) (ht : job.aggregate.Total)
    {now t : Timestamp} {key : κ} (hkey : Encoding.Faithful key) {v : ν} {around : List Window}
    (hw : job.policy.val.windowsAt t = some around) {o' : Operator κ α ω}
    (hstep : job.take (.record now key t v) o = .ok (.outcome .accepted) o')
    (hspread : job.Spreads (encode key) v (job.liveAt o around) o o') :
    job.Follows drains (inputs ++ [.record now key t v]) o' := by
  have hsame := hspread.same
  have hcounts := h.counts_iff key t v
  rw [hw, Option.getD_some] at hcounts
  refine ⟨⟨hsame.status.trans h.running, ?_, ?_, ?_, fun e => ?_⟩, ?_, hspread.sound, ?_,
    fun k hk w e => ?_⟩
  · rw [Input.progressAfter_snoc, hsame.progress, h.progress]
    rfl
  · rw [answers_snoc, List.countP_append, h.run, ← h.dropped, hsame.drops, Command.answer, hstep]
    rfl
  · rw [hsame.collector]
    exact h.once
  · -- a window that has fired takes in no more payloads
    rw [hsame.collector, hsame.progress, h.emitted e]
    refine and_congr_right fun hfired => ?_
    rw [Policy.payloads_of_record, if_neg]
    rw [hcounts, mem_liveAt, not_and, not_and]
    exact fun _ _ => Int64.not_lt.2 hfired
  · rw [after_snoc, h.run, Command.after, hstep]
  · rw [hsame.collector]
    exact h.admission
  · by_cases hc : key = k ∧ w ∈ job.liveAt o around
    · obtain ⟨acc, hadd, hentry⟩ := hspread.added ⟨encode k, w⟩ ⟨by rw [hc.1], hc.2⟩
      have hlt := (job.mem_liveAt.1 hc.2).2
      have hfold : job.aggregate.fold (job.policy.val.payloads inputs k w ++ [v]) = .ok acc := by
        rw [Aggregate.fold_snoc, h.fold_payloads ht hk hlt]
        exact hadd
      rw [hentry, Policy.payloads_of_record, if_pos ((hcounts k w).2 hc), hfold, hsame.progress]
      obtain ⟨acc', fireAt⟩ := e
      simp only [hlt, Option.some.injEq, Entry.mk.injEq, Except.ok.injEq, true_and, ne_eq,
        List.append_eq_nil_iff, List.cons_ne_nil, and_false, not_false_eq_true]
      rw [and_comm, eq_comm (a := fireAt)]
    · have hslot : ¬ (encode k = encode key ∧ w ∈ job.liveAt o around) := fun hs =>
        hc ⟨(hk.encode_injective hkey hs.1).symm, hs.2⟩
      rw [hspread.others ⟨encode k, w⟩ hslot, Policy.payloads_of_record,
        if_neg (fun hn => hc ((hcounts k w).1 hn)), hsame.progress]
      exact h.entry k hk w e

/-- Feeding a record. -/
theorem Follows.record (h : job.Follows drains inputs o) (hm : ¬ job.policy.val.merges)
    (hdomain : job.settings.val.domain = .event) (ht : job.aggregate.Total) (now : Timestamp)
    {key : κ} (hkey : Encoding.Faithful key) (t : Timestamp) (v : ν) :
    job.Follows drains (inputs ++ [.record now key t v])
      ((job.take (.record now key t v)).after o) := by
  have hstamp : job.policy.val.windowsAt (job.stamp now t) = job.policy.val.windowsAt t := by
    rw [stamp_event hdomain]
  have hidle : job.liveAt o ((job.policy.val.windowsAt t).getD []) = [] → ∀ k w,
      job.policy.val.payloads (inputs ++ [.record now key t v]) k w =
        job.policy.val.payloads inputs k w := fun hnil k w => by
    rw [Policy.payloads_of_record, if_neg]
    rw [h.counts_iff, hnil]
    simp
  cases hw : job.policy.val.windowsAt t with
  | none =>
    have hstep := take_of_feed_error (job.feed_offTheLine h.running (hstamp.trans hw) key v)
    have hafter : (job.take (.record now key t v)).after o = { o with drops := o.drops } := by
      rw [Command.after, hstep]
    rw [hafter]
    apply h.idle hafter rfl (hidle (by rw [hw]; rfl))
    rw [Command.answer, hstep]
    rfl
  | some around =>
    by_cases hlive : job.liveAt o around = []
    · have hstep := take_of_feed_ok (job.feed_late h.running (hstamp.trans hw) hlive key v)
      have hafter : (job.take (.record now key t v)).after o =
          { o with drops := o.drops.mark now } := by
        rw [Command.after, hstep]
      rw [hafter]
      apply h.idle hafter rfl (hidle (by rw [hw]; exact hlive))
      rw [Command.answer, hstep]
      rfl
    · have hnodup : (job.liveAt o around).Nodup :=
        (Policy.windowsAt_spec job.policy.property hw).1.sublist List.filter_sublist
      have hcause : ¬ job.aggregate.Total → False := fun hn => hn ht
      obtain ⟨⟨⟩, o', hloop, hspread⟩ :=
        (ensures_forM_accumulate_fixed hm h.sound ⟨key, hkey, rfl⟩ v hnodup hcause).exists_ok id
      have hstep := take_of_feed_ok (by
        rw [job.feed_live h.running (hstamp.trans hw) hlive, hloop])
      rw [Command.after, hstep]
      exact h.accepted ht hkey hw hstep hspread

omit [LawfulEncoding α] in
/-- What an advance emits is what has come due since. -/
theorem Follows.mem_emitted (h : job.Follows drains inputs o) (hplain : ∀ i ∈ inputs, i.Plain)
    {p : Timestamp} {e : Emission κ ω} :
    (∃ x, o.entryAt ⟨encode e.key, e.window⟩ = some x ∧ x.fireAt ≤ p ∧
      job.aggregate.Releases ⟨encode e.key, e.window⟩ x e) ↔
    o.progress < job.policy.val.firesAt e.window ∧ job.policy.val.firesAt e.window ≤ p ∧
      job.policy.val.payloads inputs e.key e.window ≠ [] ∧
      job.aggregate.value (job.policy.val.payloads inputs e.key e.window) = .ok e.value := by
  rw [Aggregate.value_eq_ok]
  constructor
  · rintro ⟨x, hx, hle, hrel⟩
    obtain ⟨hlt, hne, hfireAt, hfold⟩ := (h.entry e.key hrel.faithful e.window x).1 hx
    exact ⟨hlt, hfireAt ▸ hle, hne, x.acc, hfold, hrel.result⟩
  · rintro ⟨hlt, hle, hne, acc, hfold, hresult⟩
    have hkey := Policy.faithful_of_payloads _ hplain hne
    refine ⟨⟨acc, job.policy.val.firesAt e.window⟩, ?_, hle, hkey, rfl, hresult⟩
    exact (h.entry e.key hkey e.window _).2 ⟨hlt, hne, rfl, hfold⟩

section Reach

variable {p : Timestamp} {o' : Operator κ α ω} (h : job.Follows drains inputs o)
  (hplain : ∀ i ∈ inputs, i.Plain) (hp : o.progress < p) (hreach : o.Reaches job.aggregate p o')

include h hp hreach

omit [LawfulEncoding α] in
/-- Progress leaves the entries of the windows that it does not reach. -/
theorem Follows.entry_reach {k : κ} (hk : Encoding.Faithful k) (w : Window) (e : Entry α) :
    o'.entryAt ⟨encode k, w⟩ = some e ↔ p < job.policy.val.firesAt w ∧
      job.policy.val.payloads inputs k w ≠ [] ∧ e.fireAt = job.policy.val.firesAt w ∧
      job.aggregate.fold (job.policy.val.payloads inputs k w) = .ok e.acc := by
  rw [hreach.entry, Option.filter_eq_some_iff, h.entry k hk, decide_eq_true_eq]
  constructor
  · rintro ⟨⟨_, hne, hfireAt, hfold⟩, hlt⟩
    exact ⟨hfireAt ▸ hlt, hne, hfireAt, hfold⟩
  · rintro ⟨hlt, hne, hfireAt, hfold⟩
    exact ⟨⟨Int64.lt_trans hp hlt, hne, hfireAt, hfold⟩, hfireAt ▸ hlt⟩

include hplain

omit [LawfulEncoding α] in
/-- Progress emits the windows that it reaches, none of which was emitted before. -/
theorem Follows.items_reach :
    (o'.collector.items.map fun e => (e.key, e.window)).Nodup ∧
    ∀ e, e ∈ o'.collector.items ↔ job.policy.val.firesAt e.window ≤ p ∧
      job.policy.val.payloads inputs e.key e.window ≠ [] ∧
      job.aggregate.value (job.policy.val.payloads inputs e.key e.window) = .ok e.value := by
  obtain ⟨out, hitems, hnodup, hout⟩ := hreach.exists_emitted h.sound hp
  rw [hitems, List.map_append]
  refine ⟨h.once.append hnodup fun kw hold hnew => ?_, fun e => ?_⟩
  · obtain ⟨e, he, rfl⟩ := List.mem_map.1 hold
    obtain ⟨e', he', hkw⟩ := List.mem_map.1 hnew
    have hfired := ((h.emitted e).1 he).1
    have hlt := ((h.mem_emitted hplain).1 ((hout e').1 he')).1
    rw [(Prod.mk.inj hkw).2] at hlt
    exact Int64.not_lt.2 hfired hlt
  · rw [List.mem_append, h.emitted, hout, h.mem_emitted hplain]
    by_cases hfired : job.policy.val.firesAt e.window ≤ o.progress
    · have hle := Int64.le_trans hfired (Int64.le_of_lt hp)
      simp [hfired, hle, Int64.not_lt.2 hfired]
    · simp [hfired, Int64.not_le.1 hfired]

end Reach

/-- Announcing progress. -/
theorem Follows.announced (h : job.Follows drains inputs o) (hplain : ∀ i ∈ inputs, i.Plain)
    (ht : job.aggregate.Total) (hi : ∀ q, i.arrival? q = none) {p : Timestamp}
    (hprogress : ∀ q, i.progress q = (Input.advance p : Input κ ν).progress q)
    (hafter : (job.take i).after o = (job.advance p).after o) :
    job.Follows drains (inputs ++ [i]) ((job.take i).after o) := by
  have hpayloads := job.policy.val.payloads_of_advance inputs hi
  have hkept : ¬ Answer.isDropped ((job.take i).answer o) := by
    rw [not_isDropped_of_announcement hi]
    simp
  obtain ⟨o', hadvance, ho'⟩ := job.exists_advance ht h.running h.sound h.admission p
  have hrun : (job.take i).after o = o' := by rw [hafter, Command.after, hadvance]
  rw [hrun]
  by_cases hp : o.progress < p
  · rw [if_pos hp] at ho'
    obtain ⟨hsound, hreach⟩ := ho'
    obtain ⟨honce, hemitted⟩ := h.items_reach hplain hp hreach
    refine ⟨⟨hreach.status.trans h.running, ?_, ?_, honce, fun e => ?_⟩, ?_, hsound,
      hreach.admission h.admission, fun k hk w e => ?_⟩
    · rw [Input.progressAfter_snoc, ← h.progress, hprogress, Input.progress_of_lt hp,
        hreach.progress]
    · rw [answers_snoc, List.countP_append, h.run, ← h.dropped, hreach.drops, List.countP_singleton,
        if_neg hkept]
      rfl
    · rw [hpayloads, hreach.progress]
      exact hemitted e
    · rw [after_snoc, h.run, hrun]
    · rw [hpayloads, hreach.progress]
      exact h.entry_reach hp hreach hk w e
  · rw [if_neg hp] at ho'
    subst ho'
    refine h.idle hrun ?_ hpayloads ?_
    · rw [hprogress, Input.progress_of_le hp]
    · rw [List.countP_singleton, if_neg hkept]
      rfl

omit [LawfulEncoding α] in
theorem follows_start (job : Job κ ν α ω) (drains : List (DrainOrder α)) :
    job.Follows drains [] (job.start {} .none drains) := by
  have hnil : ∀ k w, job.policy.val.payloads ([] : List (Input κ ν)) k w = [] := fun _ _ => rfl
  have hentry : ∀ s, (job.start {} .none drains).entryAt s = none := Cells.entryAt_empty
  refine ⟨⟨rfl, rfl, rfl, List.nodup_nil, fun e => ?_⟩, rfl, job.sound_start {} drains, rfl,
    fun k _ w e => ?_⟩
  · simp [hnil, start]
  · simp [hnil, hentry]

/-- Every run of fresh operators follows the plain reference. -/
theorem follows (hm : ¬ job.policy.val.merges) (hdomain : job.settings.val.domain = .event)
    (ht : job.aggregate.Total) (drains : List (DrainOrder α)) (hplain : ∀ i ∈ inputs, i.Plain) :
    job.Follows drains inputs (job.after (job.start {} .none drains) inputs) := by
  induction inputs using List.reverseRecOn with
  | nil => exact job.follows_start drains
  | append_singleton inputs i ih =>
    have hfore : ∀ j ∈ inputs, j.Plain := fun j hj => hplain j (by simp [hj])
    have h := ih hfore
    rw [after_snoc]
    cases i with
    | record now key t v =>
      have hkey : Encoding.Faithful key := hplain (.record now key t v) (by simp)
      exact h.record hm hdomain ht now hkey t v
    | advance p => exact h.announced hfore ht (fun _ => rfl) (fun _ => rfl) (by
        rw [take, Command.after_map])
    | watermark w => exact h.announced hfore ht (fun _ => rfl) (fun _ => rfl) (by
        rw [take, Command.after_map, job.after_watermark hdomain])

/-- In event time, an operator of windows that do not merge does what the plain reference says,
however full its buffer is and in whichever orders it is written to the store. A record is dropped if
all of its windows have fired; one without representable windows is refused, goes into no window and
changes nothing. -/
theorem tallies_of_fixed (hm : ¬ job.policy.val.merges)
    (hdomain : job.settings.val.domain = .event) (ht : job.aggregate.Total)
    (drains : List (DrainOrder α)) (hplain : ∀ i ∈ inputs, i.Plain) :
    let o := job.after (job.start {} .none drains) inputs
    job.Tallies drains inputs o ∧ ∀ now (key : κ) t v, Encoding.Faithful key →
      (∀ ws, job.policy.val.windowsAt t = some ws → ∃ x o', job.feed now key t v o = .ok x o' ∧
        (x = .dropped ↔ ∀ w ∈ ws, job.policy.val.firesAt w ≤ o.progress)) ∧
      (job.policy.val.windowsAt t = none → job.feed now key t v o = .error (.offTheLine t) o ∧
        ∀ k w, job.policy.val.payloads (inputs ++ [.record now key t v]) k w =
          job.policy.val.payloads inputs k w) := by
  intro o
  have h : job.Follows drains inputs o := follows hm hdomain ht drains hplain
  refine ⟨h.toTallies, fun now key t v hkey => ⟨fun ws hws => ?_, fun hnone => ⟨?_, fun k w => ?_⟩⟩⟩
  · have hstamp : job.policy.val.windowsAt (job.stamp now t) = some ws := by
      rw [stamp_event hdomain, hws]
    rw [← job.liveAt_eq_nil]
    by_cases hlive : job.liveAt o ws = []
    · exact ⟨_, _, job.feed_late h.running hstamp hlive key v, by simp [hlive]⟩
    · have hcause : ¬ job.aggregate.Total → False := fun hn => hn ht
      obtain ⟨⟨⟩, o', hloop, _⟩ := (job.ensures_forM_accumulate_sound h.sound ⟨key, hkey, rfl⟩ v
        (fun hm' => absurd hm' hm) hcause).exists_ok id
      exact ⟨.accepted, o', by rw [job.feed_live h.running hstamp hlive, hloop], by simp [hlive]⟩
  · rw [job.feed_offTheLine h.running (by rw [stamp_event hdomain, hnone]), stamp_event hdomain]
  · rw [Policy.payloads_of_record, if_neg]
    rw [h.counts_iff, hnone]
    simp [liveAt]

/-- Tumbling windows of ten: two records of one window, one of which comes too late. -/
theorem tallies_tumbling :
    let job := wrappingSums ⟨{ shape := .tumbling 10 }, by decide⟩
    let inputs : List (Input Int64 Int64) :=
      [.record 0 1 5 7, .record 0 1 12 8, .advance 9, .record 0 1 6 1]
    let o := job.after (job.start {}) inputs
    job.Tallies [] inputs o ∧ o.collector.items = [⟨1, ⟨0, 10⟩, 7⟩] ∧ o.drops.total = 1 := by
  intro job inputs o
  have hm : ¬ job.policy.val.merges := by decide
  have ht : job.aggregate.Total := Aggregate.monoidal_wrappingSum.toTotal
  exact ⟨(tallies_of_fixed hm rfl ht [] fun i _ => i.plain).1, by decide +kernel, by decide +kernel⟩

end Job

end Tidemark
