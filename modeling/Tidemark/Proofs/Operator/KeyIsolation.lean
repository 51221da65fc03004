import Mathlib.Data.List.Sort
import Tidemark.Proofs.Operator.ArrivalOrder
import Tidemark.Proofs.Operator.EmissionOrder

/-! Keys do not meet. Of everything that the keys of an operator share, the records of one key touch
only what is its own. So a run without the records of all other keys shows the same of a key. -/

namespace Tidemark

namespace Call

variable {κ ν : Type}

/-- A record, an announcement of progress, or the writing out of the buffer. -/
def Streaming [Encoding κ] : Call κ ν → Prop
  | .input i => i.Plain
  | .prepare => True
  | _ => False

variable [DecidableEq κ]

/-- Anything but a record of another key. -/
def concerns (k : κ) : Call κ ν → Bool
  | .input (.record _ key _ _) => key = k
  | _ => true

def isRecordOf (k : κ) : Call κ ν → Bool
  | .input (.record _ key _ _) => key = k
  | _ => false

theorem concerns_of_isRecordOf {k : κ} {c : Call κ ν} (h : c.isRecordOf k) : c.concerns k := by
  cases c with
  | input i =>
    cases i with
    | record now key t v => exact h
    | _ => rfl
  | _ => rfl

end Call

namespace Operator

variable {κ ν α ω : Type} [Encoding κ] [Encoding α] [DecidableEq κ] {o o' o₁ o₁' : Operator κ α ω}
  {p : Policy} {g : Aggregate ν α ω} {q : Timestamp} {k : κ}

omit [Encoding κ] [Encoding α] in
/-- The results of a key, oldest first. -/
def emittedFor (k : κ) (o : Operator κ α ω) : List (Emission κ ω) :=
  o.collector.items.filter (·.key = k)

/-- A sound operator that runs and whose collector accepts everything. -/
structure Ready (p : Policy) (o : Operator κ α ω) : Prop where
  running : o.status = .running
  sound : o.Sound p
  admission : o.collector.admission = .always

/-- Operators at the same progress that have the same entries of a key, and emitted the same for
it. -/
structure SameForKey (p : Policy) (k : κ) (o o' : Operator κ α ω) : Prop where
  left : o.Ready p
  right : o'.Ready p
  progress : o.progress = o'.progress
  entry : ∀ w, o.entryAt ⟨encode k, w⟩ = o'.entryAt ⟨encode k, w⟩
  emitted : o.emittedFor k = o'.emittedFor k

/-- Nothing happened to a key. -/
structure Untouched (k : κ) (o o₁ : Operator κ α ω) : Prop where
  progress : o₁.progress = o.progress
  entry : ∀ w, o₁.entryAt ⟨encode k, w⟩ = o.entryAt ⟨encode k, w⟩
  emitted : o₁.emittedFor k = o.emittedFor k

theorem untouched_rfl : Untouched k o o := ⟨rfl, fun _ => rfl, rfl⟩

theorem SameForKey.left_untouched (h : SameForKey p k o o') (hready : o₁.Ready p)
    (hs : Untouched k o o₁) : SameForKey p k o₁ o' :=
  ⟨hready, h.right, hs.progress.trans h.progress, fun w => (hs.entry w).trans (h.entry w),
    hs.emitted.trans h.emitted⟩

theorem SameForKey.untouched (h : SameForKey p k o o') (hready : o₁.Ready p) (hready' : o₁'.Ready p)
    (hs : Untouched k o o₁) (hs' : Untouched k o' o₁') : SameForKey p k o₁ o₁' :=
  ⟨hready, hready', by rw [hs.progress, hs'.progress, h.progress],
    fun w => by rw [hs.entry, hs'.entry, h.entry], by rw [hs.emitted, hs'.emitted, h.emitted]⟩

omit [DecidableEq κ] in
theorem Ready.of_undisturbed (h : o.Ready p) (hsound : o₁.Sound p) (hsame : o.Undisturbed o₁) :
    o₁.Ready p :=
  ⟨hsame.status.trans h.running, hsound, hsame.collector ▸ h.admission⟩

/-- What a record changes is under its own key. -/
theorem untouched_of_ne {key : Bytes} (hkey : key ≠ encode k) (hsame : o.Undisturbed o₁)
    (hentry : ∀ s : Slot, s.key ≠ key → o₁.entryAt s = o.entryAt s) : Untouched k o o₁ :=
  ⟨hsame.progress, fun w => hentry ⟨encode k, w⟩ (Ne.symm hkey), by
    rw [emittedFor, emittedFor, hsame.collector]⟩

/-- The live windows of the key are the same, where windows merge. -/
theorem SameForKey.settle_eq (h : SameForKey p k o o') (candidate : Window) :
    p.settle (o.table.contents.live (encode k)) candidate =
      p.settle (o'.table.contents.live (encode k)) candidate := by
  by_cases hm : p.merges
  · rw [h.left.sound.cells.live_eq h.right.sound.cells hm fun w => by
      rw [← entryAt, ← entryAt]
      exact iff_of_eq (congrArg (fun x => x.isSome = true) (h.entry w))]
  · rw [Policy.settle, Policy.settle, if_neg hm, if_neg hm]

theorem SameForKey.accs_eq (h : SameForKey p k o o') (ws : List Window) :
    o.table.contents.accs α (encode k) ws = o'.table.contents.accs α (encode k) ws :=
  List.filterMap_congr fun w _ => by
    rw [← entryAt, ← entryAt, h.entry]

end Operator

namespace Job

open Operator

variable {κ ν α ω : Type} [Encoding κ] [Encoding α] [LawfulEncoding α] [DecidableEq κ]
  {job : Job κ ν α ω} {o o' : Operator κ α ω} {k : κ}

/-! ### Records -/

omit [DecidableEq κ] in
/-- A payload is taken in under its key. -/
theorem exists_accumulate (ht : job.aggregate.Total) (h : o.Ready job.policy.val) {key : Bytes}
    (hkey : KeyOf κ key) (v : ν) {candidate : Window} (hc : candidate.Proper) :
    ∃ o₁ acc, job.accumulate key v candidate o = .ok () o₁ ∧ o₁.Ready job.policy.val ∧
      o.Undisturbed o₁ ∧
      let m := job.policy.val.settle (o.table.contents.live key) candidate
      job.aggregate.grow (o.table.contents.accs α key m.absorbed) v = .ok acc ∧
      job.policy.val.Grows key m acc o.entryAt o₁.entryAt := by
  obtain ⟨⟨⟩, o₁, hrun, hsound, hsame, acc, hacc, hgrows⟩ :=
    (job.ensures_accumulate_sound h.sound hkey v (fun _ => hc) rfl fun hn => hn ht).exists_ok id
  exact ⟨o₁, acc, hrun, h.of_undisturbed hsound hsame, hsame, hacc, hgrows⟩

/-- Where operators are the same for a key, a payload of the key makes the same of them. -/
theorem sameForKey_accumulate (ht : job.aggregate.Total) (hk : Encoding.Faithful k)
    (h : SameForKey job.policy.val k o o') (v : ν) {candidate : Window} (hc : candidate.Proper) :
    ∃ o₁ o₁', job.accumulate (encode k) v candidate o = .ok () o₁ ∧
      job.accumulate (encode k) v candidate o' = .ok () o₁' ∧
      SameForKey job.policy.val k o₁ o₁' := by
  obtain ⟨o₁, acc, hrun, hready, hsame, hacc, hgrows⟩ :=
    exists_accumulate ht h.left ⟨k, hk, rfl⟩ v hc
  obtain ⟨o₁', acc', hrun', hready', hsame', hacc', hgrows'⟩ :=
    exists_accumulate ht h.right ⟨k, hk, rfl⟩ v hc
  rw [← h.settle_eq, ← h.accs_eq, hacc] at hacc'
  obtain rfl := Except.ok.inj hacc'
  rw [← h.settle_eq] at hgrows'
  refine ⟨o₁, o₁', hrun, hrun', hready, hready', ?_, fun w => ?_, ?_⟩
  · rw [hsame.progress, hsame'.progress, h.progress]
  · rw [hgrows, hgrows', h.entry]
  · rw [emittedFor, emittedFor, hsame.collector, hsame'.collector]
    exact h.emitted

theorem sameForKey_forM_accumulate (ht : job.aggregate.Total) (hk : Encoding.Faithful k)
    (h : SameForKey job.policy.val k o o') (v : ν) {ws : List Window} (hws : ∀ w ∈ ws, w.Proper) :
    ∃ o₁ o₁', ws.forM (job.accumulate (encode k) v) o = .ok () o₁ ∧
      ws.forM (job.accumulate (encode k) v) o' = .ok () o₁' ∧
      SameForKey job.policy.val k o₁ o₁' := by
  induction ws generalizing o o' with
  | nil => exact ⟨o, o', rfl, rfl, h⟩
  | cons w ws ih =>
    obtain ⟨o₁, o₁', hrun, hrun', h₁⟩ := sameForKey_accumulate ht hk h v (hws w (by simp))
    obtain ⟨o₂, o₂', hrest, hrest', h₂⟩ := ih h₁ fun w' hw' => hws w' (by simp [hw'])
    exact ⟨o₂, o₂', (Command.run_forM_cons hrun ws).trans hrest,
      (Command.run_forM_cons hrun' ws).trans hrest', h₂⟩

omit [Encoding κ] [Encoding α] [LawfulEncoding α] [DecidableEq κ] in
theorem proper_of_mem_liveAt (job : Job κ ν α ω) {t : Timestamp} {around : List Window}
    (hw : job.policy.val.windowsAt t = some around) (o : Operator κ α ω) :
    ∀ w ∈ job.liveAt o around, w.Proper := fun w hmem =>
  (Policy.windowsAt_spec job.policy.property hw).2 w (job.mem_liveAt.1 hmem).1

/-- A record of the key fares the same, and the operators are still the same for the key. -/
theorem sameForKey_feed (ht : job.aggregate.Total) (hk : Encoding.Faithful k)
    (h : SameForKey job.policy.val k o o') (now t : Timestamp) (v : ν) :
    (job.feed now k t v).answer o = (job.feed now k t v).answer o' ∧
      SameForKey job.policy.val k ((job.feed now k t v).after o)
        ((job.feed now k t v).after o') := by
  unfold Command.answer Command.after
  cases hw : job.policy.val.windowsAt (job.stamp now t) with
  | none =>
    rw [job.feed_offTheLine h.left.running hw, job.feed_offTheLine h.right.running hw]
    exact ⟨rfl, h⟩
  | some around =>
    have hlive : job.liveAt o' around = job.liveAt o around := by
      rw [liveAt, liveAt, h.progress]
    by_cases hlate : job.liveAt o around = []
    · rw [job.feed_late h.left.running hw hlate,
        job.feed_late h.right.running hw (hlive.trans hlate)]
      refine ⟨rfl, ⟨h.left.running, ?_, h.left.admission⟩, ⟨h.right.running, ?_, h.right.admission⟩,
        h.progress, h.entry, h.emitted⟩
      · exact h.left.sound.of_eq rfl fun _ => rfl
      · exact h.right.sound.of_eq rfl fun _ => rfl
    · obtain ⟨o₁, o₁', hrun, hrun', h₁⟩ :=
        sameForKey_forM_accumulate ht hk h v (job.proper_of_mem_liveAt hw o)
      rw [job.feed_live h.left.running hw hlate, job.feed_live h.right.running hw (hlive ▸ hlate),
        hlive, hrun, hrun']
      exact ⟨rfl, h₁⟩

omit [DecidableEq κ] in
/-- A record touches only what is under its own key. -/
theorem exists_forM_accumulate (ht : job.aggregate.Total) (h : o.Ready job.policy.val) {key : Bytes}
    (hkey : KeyOf κ key) (v : ν) {ws : List Window} (hws : ∀ w ∈ ws, w.Proper) :
    ∃ o₁, ws.forM (job.accumulate key v) o = .ok () o₁ ∧ o₁.Ready job.policy.val ∧
      o.Undisturbed o₁ ∧ ∀ s : Slot, s.key ≠ key → o₁.entryAt s = o.entryAt s := by
  induction ws generalizing o with
  | nil => exact ⟨o, rfl, h, undisturbed_rfl, fun _ _ => rfl⟩
  | cons w ws ih =>
    obtain ⟨o₁, acc, hrun, hready, hsame, _, hgrows⟩ :=
      exists_accumulate ht h hkey v (hws w (by simp))
    obtain ⟨o₂, hrest, hready₂, hsame₂, hentry⟩ := ih hready fun w' hw' => hws w' (by simp [hw'])
    refine ⟨o₂, (Command.run_forM_cons hrun ws).trans hrest, hready₂, hsame.trans hsame₂,
      fun s hs => ?_⟩
    rw [hentry s hs, hgrows, if_neg fun he => hs (by rw [he]), if_neg fun hand => hs hand.1]

theorem untouched_feed (ht : job.aggregate.Total) (h : o.Ready job.policy.val) {key : κ}
    (hkey : Encoding.Faithful key) (hne : encode key ≠ encode k) (now t : Timestamp) (v : ν) :
    ((job.feed now key t v).after o).Ready job.policy.val ∧
      Untouched k o ((job.feed now key t v).after o) := by
  unfold Command.after
  cases hw : job.policy.val.windowsAt (job.stamp now t) with
  | none =>
    rw [job.feed_offTheLine h.running hw]
    exact ⟨h, untouched_rfl⟩
  | some around =>
    by_cases hlate : job.liveAt o around = []
    · rw [job.feed_late h.running hw hlate]
      exact ⟨⟨h.running, h.sound.of_eq rfl fun _ => rfl, h.admission⟩, rfl, fun _ => rfl, rfl⟩
    · obtain ⟨o₁, hrun, hready, hsame, hentry⟩ :=
        exists_forM_accumulate ht h ⟨key, hkey, rfl⟩ v (job.proper_of_mem_liveAt hw o)
      rw [job.feed_live h.running hw hlate, hrun]
      exact ⟨hready, untouched_of_ne hne hsame hentry⟩

end Job

/-! ### Progress -/

/-- Lists are the same whose members match the same things in the same order. -/
theorem eq_of_forall₂ {β γ : Type} {R S : β → γ → Prop} {l : List β} {xs ys : List γ}
    (hxs : List.Forall₂ R l xs) (hys : List.Forall₂ S l ys)
    (h : ∀ t ∈ l, ∀ x y, R t x → S t y → x = y) : xs = ys := by
  induction hxs generalizing ys with
  | nil =>
    cases hys
    rfl
  | cons hx _ ih =>
    cases hys with
    | cons hy hys =>
      rw [h _ (by simp) _ _ hx hy, ih hys fun t ht => h t (by simp [ht])]

namespace Operator

variable {κ ν α ω : Type} [Encoding κ] [Encoding α] [DecidableEq κ] {o o' o₁ o₁' : Operator κ α ω}
  {p : Policy} {g : Aggregate ν α ω} {q : Timestamp} {k : κ}

/-- The same timers of the key come due, in the same order. -/
theorem SameForKey.due_eq (h : SameForKey p k o o') (hq : o.progress < q) :
    (o.agenda.advance q).1.filter (·.slot.key = encode k) =
      (o'.agenda.advance q).1.filter (·.slot.key = encode k) := by
  have hq' : o'.progress < q := h.progress ▸ hq
  refine ((o.agenda.pairwise_advance q).filter _).eq_of_mem_iff
    ((o'.agenda.pairwise_advance q).filter _) fun t => ?_
  rw [List.mem_filter, List.mem_filter, Agenda.mem_advance hq, Agenda.mem_advance hq',
    h.left.sound.timely, h.right.sound.timely]
  refine and_congr_left fun hkey => ?_
  have hslot : t.slot = ⟨encode k, t.slot.window⟩ := by
    rw [← of_decide_eq_true hkey]
  rw [hslot, h.entry]

/-- The results of a key come from the timers of the key. -/
theorem Reaches.emitted_for (h : o.Reaches g q o₁) (hk : Encoding.Faithful k) :
    ∃ out, o₁.emittedFor k = o.emittedFor k ++ out ∧
      List.Forall₂ (fun t e => ∃ x, o.entryAt t.slot = some x ∧ g.Releases t.slot x e)
        ((o.agenda.advance q).1.filter (·.slot.key = encode k)) out := by
  obtain ⟨out, hitems, hout⟩ := h.emitted
  refine ⟨out.filter (·.key = k), ?_, List.rel_filter ?_ hout⟩
  · rw [emittedFor, hitems, List.filter_append, emittedFor]
  · rintro t e ⟨x, _, hrel⟩
    simp only [decide_eq_true_eq]
    rw [hrel.slot]
    exact ⟨fun he => hrel.faithful.encode_injective hk he, fun he => congrArg encode he⟩

/-- Operators that are the same for a key emit the same for it, and stay the same. -/
theorem SameForKey.reaches (h : SameForKey p k o o') (hk : Encoding.Faithful k)
    (hq : o.progress < q) (hsound : o₁.Sound p) (hr : o.Reaches g q o₁) (hsound' : o₁'.Sound p)
    (hr' : o'.Reaches g q o₁') : SameForKey p k o₁ o₁' := by
  refine ⟨⟨hr.status.trans h.left.running, hsound, hr.admission h.left.admission⟩,
    ⟨hr'.status.trans h.right.running, hsound', hr'.admission h.right.admission⟩,
    hr.progress.trans hr'.progress.symm, fun w => ?_, ?_⟩
  · rw [hr.entry, hr'.entry, h.entry]
  · obtain ⟨out, hout, hmatch⟩ := hr.emitted_for hk
    obtain ⟨out', hout', hmatch'⟩ := hr'.emitted_for hk
    rw [← h.due_eq hq] at hmatch'
    rw [hout, hout', h.emitted]
    refine congrArg _ (eq_of_forall₂ hmatch hmatch' ?_)
    rintro t ht e e' ⟨x, hx, hrel⟩ ⟨x', hx', hrel'⟩
    have hslot : t.slot = ⟨encode k, t.slot.window⟩ := by
      rw [← of_decide_eq_true (List.mem_filter.1 ht).2]
    rw [hslot, ← h.entry, ← hslot, hx] at hx'
    obtain rfl := Option.some.inj hx'
    exact hrel.unique hrel'

/-- What can be seen of a key in the tables is the same. -/
theorem SameForKey.live?_eq [LawfulEncoding α] (h : SameForKey p k o o') (w : Window) :
    o.table.live? ⟨encode k, w⟩ = o'.table.live? ⟨encode k, w⟩ := by
  have hentry := h.entry w
  rwa [entryAt, entryAt, Table.entryAt_contents, Table.entryAt_contents] at hentry

theorem SameForKey.sessions_eq [LawfulEncoding α] (h : SameForKey p k o o') :
    o.table.store.cells.sessions (encode k) = o'.table.store.cells.sessions (encode k) := by
  have hleft := consistent_of_sound h.left.sound
  have hright := consistent_of_sound h.right.sound
  by_cases hm : p.merges
  · obtain ⟨ws, hws, hascending, _, hmem⟩ := hleft.sessions hm (encode k)
    obtain ⟨ws', hws', hascending', _, hmem'⟩ := hright.sessions hm (encode k)
    rw [hws, hws', hascending.eq_of_mem_iff hascending' fun w => by rw [hmem, hmem', h.live?_eq]]
  · rw [Cells.sessions, Cells.sessions, hleft.plain hm _ rfl, hright.plain hm _ rfl]

end Operator

namespace Job

open Operator

variable {κ ν α ω : Type} [Encoding κ] [Encoding α] [LawfulEncoding α] [DecidableEq κ]
  {job : Job κ ν α ω} {o o' : Operator κ α ω} {k : κ}

theorem sameForKey_advance (ht : job.aggregate.Total) (hk : Encoding.Faithful k)
    (h : SameForKey job.policy.val k o o') (q : Timestamp) :
    SameForKey job.policy.val k ((job.advance q).after o) ((job.advance q).after o') := by
  obtain ⟨o₁, hrun, ho₁⟩ :=
    job.exists_advance ht h.left.running h.left.sound h.left.admission q
  obtain ⟨o₁', hrun', ho₁'⟩ :=
    job.exists_advance ht h.right.running h.right.sound h.right.admission q
  unfold Command.after
  rw [hrun, hrun']
  by_cases hq : o.progress < q
  · rw [if_pos hq] at ho₁
    rw [← h.progress, if_pos hq] at ho₁'
    exact h.reaches hk hq ho₁.1 ho₁.2 ho₁'.1 ho₁'.2
  · rw [if_neg hq] at ho₁
    rw [← h.progress, if_neg hq] at ho₁'
    rw [ho₁, ho₁']
    exact h

/-! ### Runs -/

theorem untouched_prepare (h : o.Ready job.policy.val) :
    (prepare.after o).Ready job.policy.val ∧ Untouched k o (prepare.after o) := by
  obtain ⟨table, hrun, hread, hcells⟩ := onTable_eq Table.refines_flush h.sound.readable
  unfold Command.after prepare
  rw [whileRunning_eq _ h.running, hrun]
  exact ⟨⟨h.running, h.sound.retable hread hcells, h.admission⟩, rfl,
    fun w => by rw [entryAt, hcells, entryAt], rfl⟩

/-- Operators that are the same for a key are so after a call that both get. -/
theorem sameForKey_call (hdomain : job.settings.val.domain = .event) (ht : job.aggregate.Total)
    (hk : Encoding.Faithful k) (h : SameForKey job.policy.val k o o') {c : Call κ ν}
    (hc : c.Streaming) (hconcerns : c.concerns k) :
    SameForKey job.policy.val k ((job.call c).after o) ((job.call c).after o') := by
  cases c with
  | input i =>
    cases i with
    | record now key t v =>
      obtain rfl : key = k := by simpa [Call.concerns] using hconcerns
      rw [call, take, Command.after_map, Command.after_map]
      exact (sameForKey_feed ht hk h now t v).2
    | advance q =>
      rw [call, take, Command.after_map, Command.after_map]
      exact sameForKey_advance ht hk h q
    | watermark w =>
      rw [call, take, Command.after_map, Command.after_map, job.after_watermark hdomain,
        job.after_watermark hdomain]
      exact sameForKey_advance ht hk h w.timestamp
  | prepare =>
    rw [call, Command.after_map, Command.after_map]
    obtain ⟨hready, huntouched⟩ := untouched_prepare (k := k) h.left
    obtain ⟨hready', huntouched'⟩ := untouched_prepare (k := k) h.right
    exact h.untouched hready hready' huntouched huntouched'
  | tick t => exact hc.elim
  | snapshot => exact hc.elim
  | restore bs => exact hc.elim
  | rewind values => exact hc.elim
  | close => exact hc.elim

/-- They are so after a record of another key that only the first gets. -/
theorem sameForKey_other (ht : job.aggregate.Total) (hk : Encoding.Faithful k)
    (h : SameForKey job.policy.val k o o') {c : Call κ ν} (hc : c.Streaming)
    (hconcerns : ¬ c.concerns k) : SameForKey job.policy.val k ((job.call c).after o) o' := by
  cases c with
  | input i =>
    cases i with
    | record now key t v =>
      have hne : key ≠ k := by simpa [Call.concerns] using hconcerns
      have hkey : Encoding.Faithful key := hc
      rw [call, take, Command.after_map]
      obtain ⟨hready, huntouched⟩ := untouched_feed ht h.left hkey
        (fun he => hne (hkey.encode_injective hk he)) now t v
      exact h.left_untouched hready huntouched
    | advance q => exact absurd rfl hconcerns
    | watermark w => exact absurd rfl hconcerns
  | _ => exact absurd rfl hconcerns

/-- The two runs may be of different jobs whose calls are the same. -/
theorem sameForKey_through {job' : Job κ ν α ω} (hcall : ∀ c, job'.call c = job.call c)
    (hdomain : job.settings.val.domain = .event) (ht : job.aggregate.Total)
    (hk : Encoding.Faithful k) (h : SameForKey job.policy.val k o o') {calls : List (Call κ ν)}
    (hcalls : ∀ c ∈ calls, c.Streaming) :
    SameForKey job.policy.val k (job.through o calls)
      (job'.through o' (calls.filter (Call.concerns k))) := by
  induction calls generalizing o o' with
  | nil => exact h
  | cons c calls ih =>
    have hrest : ∀ d ∈ calls, d.Streaming := fun d hd => hcalls d (by simp [hd])
    by_cases hconcerns : c.concerns k
    · rw [List.filter_cons_of_pos hconcerns]
      have hstep : SameForKey job.policy.val k ((job.call c).after o) ((job'.call c).after o') := by
        rw [hcall]
        exact sameForKey_call hdomain ht hk h (hcalls c (by simp)) hconcerns
      exact ih hstep hrest
    · rw [List.filter_cons_of_neg hconcerns]
      exact ih (sameForKey_other ht hk h (hcalls c (by simp)) hconcerns) hrest

/-- The answers to the records of a key. -/
def outcomesFor (job : Job κ ν α ω) (k : κ) (o : Operator κ α ω) :
    List (Call κ ν) → List (Except Error Answer)
  | [] => []
  | c :: calls =>
    (if c.isRecordOf k then [(job.call c).answer o] else []) ++
      outcomesFor job k ((job.call c).after o) calls

/-- Where operators are the same for a key, its records fare the same. -/
theorem sameForKey_answer (ht : job.aggregate.Total) (hk : Encoding.Faithful k)
    (h : SameForKey job.policy.val k o o') {c : Call κ ν} (hc : c.isRecordOf k) :
    (job.call c).answer o = (job.call c).answer o' := by
  cases c with
  | input i =>
    cases i with
    | record now key t v =>
      obtain rfl : key = k := by simpa [Call.isRecordOf] using hc
      rw [call, take, Command.answer_map, Command.answer_map, (sameForKey_feed ht hk h now t v).1]
    | _ => cases hc
  | _ => cases hc

theorem outcomesFor_eq {job' : Job κ ν α ω} (hcall : ∀ c, job'.call c = job.call c)
    (hdomain : job.settings.val.domain = .event) (ht : job.aggregate.Total)
    (hk : Encoding.Faithful k) (h : SameForKey job.policy.val k o o') {calls : List (Call κ ν)}
    (hcalls : ∀ c ∈ calls, c.Streaming) :
    job.outcomesFor k o calls = job'.outcomesFor k o' (calls.filter (Call.concerns k)) := by
  induction calls generalizing o o' with
  | nil => rfl
  | cons c calls ih =>
    have hrest : ∀ d ∈ calls, d.Streaming := fun d hd => hcalls d (by simp [hd])
    by_cases hconcerns : c.concerns k
    · rw [List.filter_cons_of_pos hconcerns, outcomesFor, outcomesFor, hcall,
        ih (sameForKey_call hdomain ht hk h (hcalls c (by simp)) hconcerns) hrest]
      by_cases hrecord : c.isRecordOf k
      · rw [if_pos hrecord, if_pos hrecord, sameForKey_answer ht hk h hrecord]
      · rw [if_neg hrecord, if_neg hrecord]
    · rw [List.filter_cons_of_neg hconcerns, outcomesFor,
        if_neg fun hrecord => hconcerns (Call.concerns_of_isRecordOf hrecord), List.nil_append]
      exact ih (sameForKey_other ht hk h (hcalls c (by simp)) hconcerns) hrest

/-- The records of other keys can be left out of a run, and the buffer can be given any capacity:
the records of a key fare the same, the same is emitted for it, and its entries and sessions are the
same. As this holds of every run, it holds after every step of a run. -/
theorem keys_apart (hdomain : job.settings.val.domain = .event) (ht : job.aggregate.Total)
    (hk : Encoding.Faithful k) {settings : SoundSettings} (hdomain' : settings.val.domain = .event)
    (drains drains' : List (DrainOrder α)) {calls : List (Call κ ν)}
    (hcalls : ∀ c ∈ calls, c.Streaming) :
    let job' : Job κ ν α ω := { job with settings }
    let own := calls.filter (Call.concerns k)
    let o := job.through (job.start {} .none drains) calls
    let o' := job'.through (job'.start {} .none drains') own
    job.outcomesFor k (job.start {} .none drains) calls =
      job'.outcomesFor k (job'.start {} .none drains') own ∧
    o.emittedFor k = o'.emittedFor k ∧
    (∀ w, o.table.live? ⟨encode k, w⟩ = o'.table.live? ⟨encode k, w⟩) ∧
    o.table.store.cells.sessions (encode k) = o'.table.store.cells.sessions (encode k) ∧
    o.progress = o'.progress := by
  intro job' own o o'
  have hsame : job'.settings.val.domain = job.settings.val.domain := hdomain'.trans hdomain.symm
  have hpolicy : job'.policy = job.policy := rfl
  have hcall : ∀ c, job'.call c = job.call c := call_eq_of_domain hpolicy rfl hsame
  have hstart : SameForKey job.policy.val k (job.start {} .none drains)
      (job'.start {} .none drains') :=
    ⟨⟨rfl, job.sound_start {} drains, rfl⟩, ⟨rfl, job'.sound_start {} drains', rfl⟩,
      rfl, fun _ => rfl, rfl⟩
  have hend : SameForKey job.policy.val k o o' :=
    sameForKey_through hcall hdomain ht hk hstart hcalls
  exact ⟨outcomesFor_eq hcall hdomain ht hk hstart hcalls, hend.emitted, hend.live?_eq,
    hend.sessions_eq, hend.progress⟩

/-- Sessions of two keys. With a buffer for one entry and without the second key, the first key's
sessions merge and fire as they did. -/
theorem keys_apart_sessions :
    let job := wrappingSums ⟨{ shape := .session 10 }, by decide⟩
    let small : Job Int64 Int64 Int64 Int64 :=
      { job with settings := ⟨{ capacity := 1 }, by decide⟩ }
    let o := job.through (job.start {}) [.input (.record 0 1 5 7), .input (.record 0 2 6 1),
      .input (.record 0 1 12 8), .prepare, .input (.advance 40)]
    let o' := small.through (small.start {}) [.input (.record 0 1 5 7), .input (.record 0 1 12 8),
      .prepare, .input (.advance 40)]
    o.emittedFor 1 = [⟨1, ⟨5, 22⟩, 15⟩] ∧ o.emittedFor 1 = o'.emittedFor 1 := by
  intro job small o o'
  have hcalls : ∀ c ∈ ([.input (.record 0 1 5 7), .input (.record 0 2 6 1),
      .input (.record 0 1 12 8), .prepare, .input (.advance 40)] : List (Call Int64 Int64)),
      c.Streaming := by
    intro c hc
    cases c with
    | input i => exact i.plain
    | prepare => trivial
    | _ => simp at hc
  have hdomain : job.settings.val.domain = .event := rfl
  have hdomain' : small.settings.val.domain = .event := rfl
  obtain ⟨_, hemitted, _⟩ := keys_apart hdomain Aggregate.monoidal_wrappingSum.toTotal (faithful 1)
    hdomain' [] [] hcalls
  exact ⟨by decide +kernel, hemitted⟩

end Job

end Tidemark
