import Std.Data.ExtTreeMap
import Std.Data.ExtTreeSet
import Tidemark.Table.Basic

/-! The agenda: the timers that wait, at most one for a slot, and the progress announced so far.
Timers come due in the order of firing time, window start, key and window end. -/

namespace Tidemark

/-- The window of a slot fires when progress reaches `fireAt`. -/
structure Timer where
  slot : Slot
  fireAt : Timestamp
deriving DecidableEq, Repr

namespace Timer

/-- Firing time, window start, key, window end. -/
def order : Timer → Timer → Ordering :=
  compareLex (compareOn fireAt) <| compareLex (compareOn (·.slot.window.start)) <|
    compareLex (compareOn (·.slot.key)) (compareOn (·.slot.window.stop))

instance : Ord Timer := ⟨order⟩

instance : Std.TransOrd Timer :=
  inferInstanceAs (Std.TransCmp (compareLex (compareOn fireAt) <|
    compareLex (compareOn (·.slot.window.start)) <|
      compareLex (compareOn (·.slot.key)) (compareOn (·.slot.window.stop))))

instance : Std.LawfulEqOrd Timer where
  eq_of_compare {a b} h := by
    simp only [compare, order, compareLex, Ordering.then_eq_eq] at h
    obtain ⟨h₁, h₂, h₃, h₄⟩ := h
    obtain ⟨⟨key, start, stop⟩, fireAt⟩ := a
    obtain ⟨⟨key', start', stop'⟩, fireAt'⟩ := b
    simp only [mk.injEq, Slot.mk.injEq, Window.mk.injEq]
    exact ⟨⟨Std.LawfulEqOrd.eq_of_compare h₃, Std.LawfulEqOrd.eq_of_compare h₂,
      Std.LawfulEqOrd.eq_of_compare h₄⟩, Std.LawfulEqOrd.eq_of_compare h₁⟩

end Timer

/-- The waiting timers twice: queued in firing order, and indexed by slot. -/
structure Agenda where
  progress : Timestamp
  queue : Std.ExtTreeSet Timer
  index : Std.ExtTreeMap Slot Timestamp
  coherent : ∀ t : Timer, t ∈ queue ↔ index[t.slot]? = some t.fireAt

namespace Agenda

def empty (progress : Timestamp) : Agenda := ⟨progress, ∅, ∅, by simp⟩

/-- Nothing waits and nothing was announced. -/
def initial : Agenda := empty .first

/-- When a slot fires. -/
def fireAt? (a : Agenda) (s : Slot) : Option Timestamp := a.index[s]?

def size (a : Agenda) : Nat := a.queue.size

def isEmpty (a : Agenda) : Bool := a.queue.isEmpty

/-- The earliest firing time. -/
def next? (a : Agenda) : Option Timestamp := a.queue.min?.map Timer.fireAt

theorem mem_queue {a : Agenda} {t : Timer} : t ∈ a.queue ↔ a.fireAt? t.slot = some t.fireAt :=
  a.coherent t

/-- The queue without the timer of `s`. -/
def dequeue (a : Agenda) (s : Slot) : Std.ExtTreeSet Timer :=
  match a.index[s]? with
  | some fireAt => a.queue.erase ⟨s, fireAt⟩
  | none => a.queue

theorem mem_dequeue {a : Agenda} {s : Slot} {t : Timer} :
    t ∈ a.dequeue s ↔ s ≠ t.slot ∧ a.index[t.slot]? = some t.fireAt := by
  unfold dequeue
  split
  next u h =>
    rw [Std.ExtTreeSet.mem_erase, a.coherent, ne_eq, Std.compare_eq_iff_eq]
    refine and_congr_left fun ht => not_congr ⟨fun he => congrArg Timer.slot he, fun he => ?_⟩
    obtain ⟨slot, fireAt⟩ := t
    obtain rfl : s = slot := he
    rw [h] at ht
    rw [Option.some.inj ht]
  next h =>
    rw [a.coherent]
    refine ⟨fun ht => ⟨?_, ht⟩, And.right⟩
    rintro rfl
    rw [h] at ht
    cases ht

/-- Set the firing time of a slot; says whether that changed anything. -/
def register (a : Agenda) (s : Slot) (fireAt : Timestamp) : Bool × Agenda :=
  if a.fireAt? s = some fireAt then (false, a)
  else (true, ⟨a.progress, (a.dequeue s).insert ⟨s, fireAt⟩, a.index.insert s fireAt, by
    intro t
    simp only [Std.ExtTreeSet.mem_insert, Std.ExtTreeMap.getElem?_insert, mem_dequeue,
      Std.compare_eq_iff_eq]
    obtain ⟨slot, time⟩ := t
    by_cases h : s = slot <;> simp [h]⟩)

theorem fireAt?_register (a : Agenda) (s r : Slot) (fireAt : Timestamp) :
    (a.register s fireAt).2.fireAt? r = if s = r then some fireAt else a.fireAt? r := by
  unfold register
  split
  next h =>
    split
    next hr => rw [← hr, h]
    next => rfl
  next =>
    simp only [fireAt?, Std.ExtTreeMap.getElem?_insert, Std.compare_eq_iff_eq]

/-- Remove the timer of a slot; answers when it would have fired. -/
def cancel (a : Agenda) (s : Slot) : Option Timestamp × Agenda :=
  (a.fireAt? s, ⟨a.progress, a.dequeue s, a.index.erase s, by
    intro t
    simp only [mem_dequeue, Std.ExtTreeMap.getElem?_erase, Std.compare_eq_iff_eq]
    by_cases h : s = t.slot <;> simp [h]⟩)

theorem fireAt?_cancel (a : Agenda) (s r : Slot) :
    (a.cancel s).2.fireAt? r = if s = r then none else a.fireAt? r := by
  simp only [cancel, fireAt?, Std.ExtTreeMap.getElem?_erase, Std.compare_eq_iff_eq]

/-- Announce progress: the timers that it reaches leave the agenda, in firing order. Progress that
is no news changes nothing. -/
def advance (a : Agenda) (progress : Timestamp) : List Timer × Agenda :=
  if progress ≤ a.progress then ([], a)
  else ((a.queue.filter (·.fireAt ≤ progress)).toList,
    ⟨progress, a.queue.filter (progress < ·.fireAt), a.index.filter fun _ t => progress < t, by
      intro t
      simp only [Std.ExtTreeSet.mem_filter, Std.ExtTreeSet.get_eq, Std.ExtTreeMap.getElem?_filter',
        Option.filter_eq_some_iff, exists_prop, a.coherent]⟩)

/-- What progress reaches leaves the agenda, and nothing else does. -/
theorem mem_advance {a : Agenda} {progress : Timestamp} (h : a.progress < progress) {t : Timer} :
    t ∈ (a.advance progress).1 ↔ a.fireAt? t.slot = some t.fireAt ∧ t.fireAt ≤ progress := by
  have hp : ¬ progress ≤ a.progress := Int64.not_le.2 h
  simp only [advance, if_neg hp, Std.ExtTreeSet.mem_toList, Std.ExtTreeSet.mem_filter,
    Std.ExtTreeSet.get_eq, mem_queue, exists_prop, decide_eq_true_eq]

theorem fireAt?_advance {a : Agenda} {progress : Timestamp} (h : a.progress < progress) (s : Slot) :
    (a.advance progress).2.fireAt? s = (a.fireAt? s).filter (progress < ·) := by
  have hp : ¬ progress ≤ a.progress := Int64.not_le.2 h
  simp only [advance, if_neg hp, fireAt?, Std.ExtTreeMap.getElem?_filter']

/-- Set progress, also backwards; the timers stay. -/
def rewind (a : Agenda) (progress : Timestamp) : Agenda := { a with progress }

/-- Remove every timer. -/
def clear (a : Agenda) : Agenda := empty a.progress

end Agenda

end Tidemark
