import Mathlib.Data.List.Sort
import Mathlib.Data.Set.Card
import Mathlib.Order.Bounds.Basic
import Tidemark.Agenda

/-! What an agenda means. It holds its timers twice, and what it answers is told by a timetable:
progress, and a firing time for each slot that waits. Whatever is asked of a new agenda, in any
order, the answers are those of the timetable, and due timers are told in firing order. -/

namespace Tidemark

instance asymm_compare {β : Type} [Ord β] [Std.OrientedOrd β] :
    Std.Asymm fun x y : β => compare x y = .lt :=
  ⟨fun _ _ h h' => Std.OrientedCmp.not_lt_of_lt h h'⟩

namespace Timer

/-- `t` is due before `u`: by firing time, then by window start, key and window end. -/
def Before (t u : Timer) : Prop :=
  t.fireAt < u.fireAt ∨ t.fireAt = u.fireAt ∧
    (t.slot.window.start < u.slot.window.start ∨ t.slot.window.start = u.slot.window.start ∧
      (t.slot.key < u.slot.key ∨ t.slot.key = u.slot.key ∧ t.slot.window.stop < u.slot.window.stop))

theorem compare_eq_lt {t u : Timer} : compare t u = .lt ↔ t.Before u := by
  show (compare t.fireAt u.fireAt).then
    ((compare t.slot.window.start u.slot.window.start).then
      ((compare t.slot.key u.slot.key).then
        (compare t.slot.window.stop u.slot.window.stop))) = .lt ↔ _
  simp only [Ordering.then_eq_lt, Std.compare_eq_lt, Std.compare_eq_iff_eq, Bytes.compare_eq_lt,
    Before]

theorem lt_of_fireAt_lt {t u : Timer} (h : t.fireAt < u.fireAt) : compare t u = .lt :=
  compare_eq_lt.2 (.inl h)

theorem fireAt_le {t u : Timer} (h : (compare t u).isLE) : t.fireAt ≤ u.fireAt := by
  rcases Ordering.isLE_iff_eq_lt_or_eq_eq.1 h with hlt | heq
  · rcases compare_eq_lt.1 hlt with hlt | ⟨heq, -⟩
    · exact Int64.le_of_lt hlt
    · exact heq ▸ Int64.le_refl _
  · exact Std.LawfulEqOrd.eq_of_compare heq ▸ Int64.le_refl _

end Timer

namespace Agenda

variable {a b : Agenda} {s : Slot} {t : Timer} {p q : Timestamp}

/-- An agenda is its progress and its firing times. -/
theorem eq_of_fireAt? (hp : a.progress = b.progress) (h : ∀ s, a.fireAt? s = b.fireAt? s) :
    a = b := by
  have hindex : a.index = b.index := Std.ExtTreeMap.ext_getElem? h
  have hqueue : a.queue = b.queue := by
    refine Std.ExtTreeSet.ext_mem fun t => ?_
    rw [mem_queue, mem_queue, h]
  obtain ⟨progress, queue, index, coherent⟩ := a
  obtain ⟨progress', queue', index', coherent'⟩ := b
  simp only at hp hindex hqueue
  subst hp hindex hqueue
  rfl

theorem progress_register (a : Agenda) (s : Slot) (fireAt : Timestamp) :
    (a.register s fireAt).2.progress = a.progress := by
  unfold register
  split <;> rfl

/-! ### What comes due -/

theorem advance_of_le (h : p ≤ a.progress) : a.advance p = ([], a) := if_pos h

theorem progress_advance (h : a.progress < p) : (a.advance p).2.progress = p := by
  rw [advance, if_neg (Int64.not_le.2 h)]

/-- What comes due is in firing order. -/
theorem pairwise_advance (a : Agenda) (p : Timestamp) :
    (a.advance p).1.Pairwise fun t u => compare t u = .lt := by
  unfold advance
  split
  · exact .nil
  · exact Std.ExtTreeSet.ordered_toList

theorem mem_queue_of_mem_advance (h : t ∈ (a.advance p).1) : t ∈ a.queue ∧ t.fireAt ≤ p := by
  by_cases hp : a.progress < p
  · obtain ⟨hfire, hle⟩ := (mem_advance hp).1 h
    exact ⟨mem_queue.2 hfire, hle⟩
  · rw [advance_of_le (Int64.not_lt.1 hp)] at h
    cases h

/-- Waiting timers are told apart by their slots. -/
theorem eq_of_slot_eq {u : Timer} (ht : t ∈ a.queue) (hu : u ∈ a.queue) (h : t.slot = u.slot) :
    t = u := by
  rw [mem_queue, h, mem_queue.1 hu] at ht
  obtain ⟨slot, fireAt⟩ := t
  obtain ⟨slot', fireAt'⟩ := u
  rw [Timer.mk.injEq]
  exact ⟨h, (Option.some.inj ht).symm⟩

theorem nodup_slots {l : List Timer} (hsorted : l.Pairwise fun t u => compare t u = .lt)
    (h : ∀ t ∈ l, t ∈ a.queue) : (l.map Timer.slot).Nodup :=
  hsorted.nodup.map_on fun t ht u hu he => eq_of_slot_eq (h t ht) (h u hu) he

/-- A slot comes due once. -/
theorem nodup_advance (a : Agenda) (p : Timestamp) : ((a.advance p).1.map Timer.slot).Nodup :=
  nodup_slots (a.pairwise_advance p) fun _ ht => (mem_queue_of_mem_advance ht).1

/-- What comes due in two steps comes due in one, in the same order, and the same timers stay. -/
theorem advance_advance (h : p ≤ q) (a : Agenda) :
    (a.advance p).1 ++ ((a.advance p).2.advance q).1 = (a.advance q).1 ∧
      ((a.advance p).2.advance q).2 = (a.advance q).2 := by
  by_cases hp : p ≤ a.progress
  · rw [advance_of_le hp]
    exact ⟨rfl, rfl⟩
  have hp := Int64.not_le.1 hp
  have hq : a.progress < q := Int64.lt_of_lt_of_le hp h
  by_cases hlt : p < q
  · have hmid : (a.advance p).2.progress < q := (progress_advance hp).symm ▸ hlt
    have hfirst : ∀ t ∈ (a.advance p).1, t.fireAt ≤ p := fun t ht => ((mem_advance hp).1 ht).2
    have hsecond : ∀ t, t ∈ ((a.advance p).2.advance q).1 ↔
        a.fireAt? t.slot = some t.fireAt ∧ p < t.fireAt ∧ t.fireAt ≤ q := by
      intro t
      rw [mem_advance hmid, fireAt?_advance hp, Option.filter_eq_some_iff, decide_eq_true_eq,
        and_assoc]
    have hsorted : ((a.advance p).1 ++ ((a.advance p).2.advance q).1).Pairwise
        fun t u => compare t u = .lt :=
      List.pairwise_append.2 ⟨pairwise_advance _ _, pairwise_advance _ _, fun t ht u hu =>
        Timer.lt_of_fireAt_lt (Int64.lt_of_le_of_lt (hfirst t ht) ((hsecond u).1 hu).2.1)⟩
    refine ⟨hsorted.eq_of_mem_iff (a.pairwise_advance q) fun t => ?_, eq_of_fireAt? ?_ fun s => ?_⟩
    · rw [List.mem_append, mem_advance hp, hsecond, mem_advance hq, ← and_or_left]
      refine and_congr_right fun _ => ⟨?_, fun hle => ?_⟩
      · rintro (hle | ⟨-, hle⟩)
        · exact Int64.le_trans hle h
        · exact hle
      · by_cases hpt : t.fireAt ≤ p
        · exact .inl hpt
        · exact .inr ⟨Int64.not_le.1 hpt, hle⟩
    · rw [progress_advance hmid, progress_advance hq]
    · rw [fireAt?_advance hmid, fireAt?_advance hp, fireAt?_advance hq]
      ext t
      simp only [Option.filter_eq_some_iff, decide_eq_true_eq, and_assoc]
      exact and_congr_right fun _ => ⟨And.right, fun hgt => ⟨Int64.lt_trans hlt hgt, hgt⟩⟩
  · obtain rfl : p = q := Int64.le_antisymm h (Int64.not_lt.1 hlt)
    have hstill : p ≤ (a.advance p).2.progress := (progress_advance hp).symm ▸ Int64.le_refl p
    rw [advance_of_le hstill, List.append_nil]
    exact ⟨rfl, rfl⟩

/-! ### One timer after another -/

/-- The first timer of the queue, when `progress` reaches it. -/
def first? (a : Agenda) (progress : Timestamp) : Option Timer :=
  a.queue.min?.filter (·.fireAt ≤ progress)

theorem first?_eq_some : a.first? p = some t ↔
    (t ∈ a.queue ∧ ∀ u ∈ a.queue, (compare t u).isLE) ∧ t.fireAt ≤ p := by
  rw [first?, Option.filter_eq_some_iff, Std.ExtTreeSet.min?_eq_some_iff_mem_and_forall,
    decide_eq_true_eq]

theorem lt_fireAt_of_first?_eq_none (h : a.first? p = none) (ht : t ∈ a.queue) : p < t.fireAt := by
  obtain ⟨u, hmin⟩ := Option.isSome_iff_exists.1 (Std.ExtTreeSet.isSome_min?_of_mem ht)
  have hfar : ¬ u.fireAt ≤ p := by simpa [first?, hmin] using h
  have hfirst := (Std.ExtTreeSet.min?_eq_some_iff_mem_and_forall.1 hmin).2 t ht
  exact Int64.lt_of_lt_of_le (Int64.not_le.1 hfar) (Timer.fireAt_le hfirst)

theorem mem_queue_cancel {u : Timer} (h : t ∈ a.queue) :
    u ∈ (a.cancel t.slot).2.queue ↔ t ≠ u ∧ u ∈ a.queue := by
  rw [mem_queue, fireAt?_cancel, Option.ite_none_left_eq_some, ← mem_queue]
  exact and_congr_left fun hu => not_congr ⟨eq_of_slot_eq h hu, congrArg _⟩

theorem size_cancel_lt (h : t ∈ a.queue) : (a.cancel t.slot).2.size < a.size := by
  have hqueue : (a.cancel t.slot).2.queue = a.queue.erase t := Std.ExtTreeSet.ext_mem fun u => by
    rw [mem_queue_cancel h, Std.ExtTreeSet.mem_erase, ne_eq, ne_eq, Std.compare_eq_iff_eq]
  have hpos : a.queue.size ≠ 0 := fun h₀ => by
    rw [Std.ExtTreeSet.eq_empty_iff_size_eq_zero.2 h₀] at h
    exact Std.ExtTreeSet.not_mem_empty h
  rw [size, size, hqueue, Std.ExtTreeSet.size_erase, if_pos (Std.ExtTreeSet.mem_iff_contains.1 h)]
  omega

/-- The timers that `progress` reaches, taken from the front of the queue one after another. -/
def drain (a : Agenda) (progress : Timestamp) : List Timer × Agenda :=
  match _h : a.first? progress with
  | none => ([], a)
  | some t =>
    let rest := (a.cancel t.slot).2.drain progress
    (t :: rest.1, rest.2)
termination_by a.size
decreasing_by exact size_cancel_lt (first?_eq_some.1 ‹_›).1.1

/-- `due` is what `p` reaches in `a`, in firing order, and `b` is what it leaves. -/
structure Splits (a : Agenda) (p : Timestamp) (due : List Timer) (b : Agenda) : Prop where
  sorted : due.Pairwise fun t u => compare t u = .lt
  mem_due : ∀ t, t ∈ due ↔ t ∈ a.queue ∧ t.fireAt ≤ p
  left : ∀ s, b.fireAt? s = (a.fireAt? s).filter (p < ·)
  progress : b.progress = a.progress

theorem splits_nil (h : a.first? p = none) : a.Splits p [] a where
  sorted := .nil
  mem_due t := ⟨by simp, fun ⟨ht, hle⟩ => absurd (lt_fireAt_of_first?_eq_none h ht)
    (Int64.not_lt.2 hle)⟩
  left s := by
    cases hs : a.fireAt? s with
    | none => rfl
    | some fireAt =>
      have hwaits : (⟨s, fireAt⟩ : Timer) ∈ a.queue := mem_queue.2 hs
      have hlater := lt_fireAt_of_first?_eq_none h hwaits
      rw [eq_comm, Option.filter_eq_some_iff]
      exact ⟨rfl, decide_eq_true hlater⟩
  progress := rfl

theorem Splits.cons {due : List Timer} (h : a.first? p = some t)
    (hrest : (a.cancel t.slot).2.Splits p due b) : a.Splits p (t :: due) b := by
  obtain ⟨⟨hmem, hfirst⟩, hle⟩ := first?_eq_some.1 h
  have hdue : ∀ u, u ∈ due ↔ (t ≠ u ∧ u ∈ a.queue) ∧ u.fireAt ≤ p := fun u => by
    rw [hrest.mem_due, mem_queue_cancel hmem]
  refine ⟨List.pairwise_cons.2 ⟨fun u hu => ?_, hrest.sorted⟩, fun u => ?_, fun s => ?_,
    hrest.progress⟩
  · obtain ⟨⟨hne, hu⟩, -⟩ := (hdue u).1 hu
    exact (Ordering.isLE_iff_eq_lt_or_eq_eq.1 (hfirst u hu)).resolve_right fun he =>
      hne (Std.LawfulEqOrd.eq_of_compare he)
  · rw [List.mem_cons, hdue]
    constructor
    · rintro (rfl | ⟨⟨-, hu⟩, hle'⟩)
      · exact ⟨hmem, hle⟩
      · exact ⟨hu, hle'⟩
    · rintro ⟨hu, hle'⟩
      by_cases he : u = t
      · exact .inl he
      · exact .inr ⟨⟨Ne.symm he, hu⟩, hle'⟩
  · rw [hrest.left, fireAt?_cancel]
    by_cases hs : t.slot = s
    · rw [if_pos hs, ← hs, mem_queue.1 hmem, Option.filter_none, eq_comm,
        Option.filter_eq_none_iff]
      intro fireAt ht hlt
      cases ht
      exact Int64.not_lt.2 hle (of_decide_eq_true hlt)
    · rw [if_neg hs]

theorem splits_drain (a : Agenda) (p : Timestamp) : a.Splits p (a.drain p).1 (a.drain p).2 := by
  induction a using drain.induct p with
  | case1 a h =>
    rw [drain, h]
    exact splits_nil h
  | case2 a t h ih =>
    rw [drain, h]
    exact .cons h ih

/-- What comes due can be taken from the queue one timer after another. -/
theorem advance_eq_drain (h : a.progress < p) :
    a.advance p = ((a.drain p).1, (a.drain p).2.rewind p) := by
  have hsplits := a.splits_drain p
  refine Prod.ext ((pairwise_advance a p).eq_of_mem_iff hsplits.sorted fun t => ?_)
    (eq_of_fireAt? (progress_advance h) fun s => ?_)
  · rw [mem_advance h, hsplits.mem_due, mem_queue]
  · exact (fireAt?_advance h s).trans (hsplits.left s).symm

/-! ### Requests -/

/-- A call that changes an agenda. -/
inductive Request where
  | register (s : Slot) (fireAt : Timestamp)
  | cancel (s : Slot)
  | advance (progress : Timestamp)
  | rewind (progress : Timestamp)
  | clear

inductive Reply where
  /-- Whether anything changed. -/
  | changed (b : Bool)
  /-- The firing time that is given up. -/
  | gave (fireAt : Option Timestamp)
  | due (timers : List Timer)
  | done

/-- An agenda does what is asked. -/
def perform (a : Agenda) : Request → Reply × Agenda
  | .register s fireAt => (a.register s fireAt).map .changed id
  | .cancel s => (a.cancel s).map .gave id
  | .advance p => (a.advance p).map .due id
  | .rewind p => (.done, a.rewind p)
  | .clear => (.done, a.clear)

end Agenda

/-- What an agenda means: the progress announced so far, and the firing time of each slot that
waits. -/
@[ext]
structure Timetable where
  progress : Timestamp
  fireAt? : Slot → Option Timestamp

namespace Timetable

variable {m : Timetable} {r : Agenda.Request}

/-- Nothing waits and nothing was announced. -/
def blank : Timetable := ⟨.first, fun _ => none⟩

/-- The timetable after a request. -/
def after (m : Timetable) : Agenda.Request → Timetable
  | .register s fireAt => ⟨m.progress, Function.update m.fireAt? s (some fireAt)⟩
  | .cancel s => ⟨m.progress, Function.update m.fireAt? s none⟩
  | .advance p =>
    if p ≤ m.progress then m else ⟨p, fun s => (m.fireAt? s).filter (p < ·)⟩
  | .rewind p => ⟨p, m.fireAt?⟩
  | .clear => ⟨m.progress, fun _ => none⟩

/-- The replies that are right for a request. -/
inductive Answers (m : Timetable) : Agenda.Request → Agenda.Reply → Prop
  | register (s : Slot) (fireAt : Timestamp) :
    Answers m (.register s fireAt) (.changed (m.fireAt? s ≠ some fireAt))
  | cancel (s : Slot) : Answers m (.cancel s) (.gave (m.fireAt? s))
  | noNews {p : Timestamp} (h : p ≤ m.progress) : Answers m (.advance p) (.due [])
  | news {p : Timestamp} {timers : List Timer} (h : m.progress < p)
    (sorted : timers.Pairwise Timer.Before)
    (exact : ∀ t : Timer, t ∈ timers ↔ m.fireAt? t.slot = some t.fireAt ∧ t.fireAt ≤ p) :
    Answers m (.advance p) (.due timers)
  | rewind (p : Timestamp) : Answers m (.rewind p) .done
  | clear : Answers m .clear .done

end Timetable

namespace Agenda

variable {a : Agenda} {r : Request}

/-- The timetable that an agenda keeps. -/
def timetable (a : Agenda) : Timetable := ⟨a.progress, a.fireAt?⟩

theorem timetable_initial : initial.timetable = .blank := by
  ext1
  · rfl
  · funext s
    simp [timetable, initial, empty, fireAt?, Timetable.blank]

/-- Every request changes the agenda as it changes the timetable. -/
theorem timetable_perform (a : Agenda) (r : Request) :
    (a.perform r).2.timetable = a.timetable.after r := by
  cases r with
  | register s fireAt =>
    ext1
    · exact progress_register a s fireAt
    · funext r
      refine (fireAt?_register a s r fireAt).trans ?_
      simp only [Timetable.after, timetable, Function.update_apply, eq_comm (a := s)]
  | cancel s =>
    ext1
    · rfl
    · funext r
      refine (fireAt?_cancel a s r).trans ?_
      simp only [Timetable.after, timetable, Function.update_apply, eq_comm (a := s)]
  | advance p =>
    by_cases h : p ≤ a.progress
    · refine (congrArg (fun r => timetable r.2) (advance_of_le h)).trans ?_
      exact (if_pos h).symm
    · have hlt := Int64.not_le.1 h
      refine .trans ?_ (if_neg h).symm
      ext1
      · exact progress_advance hlt
      · exact funext (fireAt?_advance hlt)
  | rewind p => rfl
  | clear =>
    ext1
    · rfl
    · funext s
      simp [perform, timetable, clear, empty, fireAt?, Timetable.after]

/-- Every reply is right. -/
theorem answers_perform (a : Agenda) (r : Request) : a.timetable.Answers r (a.perform r).1 := by
  cases r with
  | register s fireAt =>
    have hchanged : (a.register s fireAt).1 = decide (a.fireAt? s ≠ some fireAt) := by
      unfold register
      split <;> simp [*]
    show a.timetable.Answers _ (.changed (a.register s fireAt).1)
    rw [hchanged]
    exact .register s fireAt
  | cancel s => exact .cancel s
  | advance p =>
    show a.timetable.Answers _ (.due (a.advance p).1)
    by_cases h : p ≤ a.progress
    · rw [advance_of_le h]
      exact .noNews h
    · have hlt := Int64.not_le.1 h
      exact .news hlt ((a.pairwise_advance p).imp Timer.compare_eq_lt.1) fun _ => mem_advance hlt
  | rewind p => exact .rewind p
  | clear => exact .clear

theorem size_eq_encard (a : Agenda) : (a.size : ℕ∞) = {s | (a.fireAt? s).isSome}.encard := by
  have hnodup : (a.queue.toList.map Timer.slot).Nodup :=
    nodup_slots Std.ExtTreeSet.ordered_toList fun _ => Std.ExtTreeSet.mem_toList.1
  have hslots : {s | (a.fireAt? s).isSome} = (a.queue.toList.map Timer.slot).toFinset := by
    ext s
    simp only [Set.mem_ofPred_eq, Option.isSome_iff_exists, List.coe_toFinset, List.mem_map,
      Std.ExtTreeSet.mem_toList, mem_queue]
    constructor
    · rintro ⟨fireAt, hs⟩
      exact ⟨⟨s, fireAt⟩, hs, rfl⟩
    · rintro ⟨t, ht, rfl⟩
      exact ⟨t.fireAt, ht⟩
  rw [hslots, Set.encard_coe_eq_coe_finsetCard, List.toFinset_card_of_nodup hnodup,
    List.length_map, Std.ExtTreeSet.length_toList, size]

theorem queue_eq_empty_iff : a.queue = ∅ ↔ ∀ s, a.fireAt? s = none := by
  constructor
  · intro h s
    refine Option.eq_none_iff_forall_ne_some.2 fun fireAt hs => ?_
    have hmem : (⟨s, fireAt⟩ : Timer) ∈ a.queue := mem_queue.2 hs
    rw [h] at hmem
    exact Std.ExtTreeSet.not_mem_empty hmem
  · intro h
    refine Std.ExtTreeSet.ext_mem fun t => ?_
    rw [mem_queue, h]
    simp

theorem next?_eq_some {fireAt : Timestamp} :
    a.next? = some fireAt ↔ IsLeast {t | ∃ s, a.fireAt? s = some t} fireAt := by
  have hleast : ∀ {t : Timer}, a.queue.min? = some t →
      IsLeast {fireAt | ∃ s, a.fireAt? s = some fireAt} t.fireAt := by
    intro t ht
    obtain ⟨hmem, hfirst⟩ := Std.ExtTreeSet.min?_eq_some_iff_mem_and_forall.1 ht
    refine ⟨⟨t.slot, mem_queue.1 hmem⟩, ?_⟩
    rintro fireAt' ⟨s, hs⟩
    have hwaits : (⟨s, fireAt'⟩ : Timer) ∈ a.queue := mem_queue.2 hs
    have hle := Timer.fireAt_le (hfirst _ hwaits)
    exact hle
  constructor
  · intro h
    obtain ⟨t, ht, rfl⟩ := Option.map_eq_some_iff.1 h
    exact hleast ht
  · intro h
    obtain ⟨s, hs⟩ := h.1
    have hmem : (⟨s, fireAt⟩ : Timer) ∈ a.queue := mem_queue.2 hs
    obtain ⟨t, ht⟩ := Option.isSome_iff_exists.1 (Std.ExtTreeSet.isSome_min?_of_mem hmem)
    have hsame := Int64.le_antisymm ((hleast ht).2 h.1) (h.2 (hleast ht).1)
    rw [next?, ht, Option.map_some, hsame]

/-- The agenda shows what the timetable says. -/
structure Shows (a : Agenda) (m : Timetable) : Prop where
  progress : a.progress = m.progress
  fireAt? : ∀ s, a.fireAt? s = m.fireAt? s
  size : (a.size : ℕ∞) = {s | (m.fireAt? s).isSome}.encard
  isEmpty : a.isEmpty ↔ ∀ s, m.fireAt? s = none
  next : ∀ fireAt, a.next? = some fireAt ↔ IsLeast {t | ∃ s, m.fireAt? s = some t} fireAt
  none : a.next? = none ↔ ∀ s, m.fireAt? s = none

theorem shows_timetable (a : Agenda) : a.Shows a.timetable where
  progress := rfl
  fireAt? _ := rfl
  size := a.size_eq_encard
  isEmpty := Std.ExtTreeSet.isEmpty_iff.trans queue_eq_empty_iff
  next _ := next?_eq_some
  none := by
    rw [next?, Option.map_eq_none_iff, Std.ExtTreeSet.min?_eq_none_iff]
    exact queue_eq_empty_iff

/-! ### Runs -/

/-- Whatever was asked of a new agenda before, it shows what the timetable says, and its reply to
the next request is right. -/
theorem refines_timetable (earlier : List Request) (r : Request) :
    let a := earlier.foldl (fun a r => (a.perform r).2) initial
    let m := earlier.foldl Timetable.after .blank
    a.Shows m ∧ m.Answers r (a.perform r).1 := by
  intro a m
  have hm : m = a.timetable := by
    show earlier.foldl Timetable.after .blank = _
    rw [← timetable_initial]
    exact List.foldl_hom timetable fun a r => (timetable_perform a r).symm
  rw [hm]
  exact ⟨a.shows_timetable, a.answers_perform r⟩

end Agenda

end Tidemark
