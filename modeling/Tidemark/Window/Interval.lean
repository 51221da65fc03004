import Tidemark.Time.Line

/-! Windows: half-open intervals of the time line, ordered by start, then by end. -/

namespace Tidemark

/-- The instants from `start` up to, but not including, `stop`. A window that was decoded may have
none. -/
structure Window where
  start : Timestamp
  stop : Timestamp
deriving DecidableEq, Repr, Inhabited

namespace Window

/-- The last instant inside. -/
def lastInstant (w : Window) : Timestamp := w.stop - 1

def contains (w : Window) (t : Timestamp) : Bool := w.start ≤ t && t < w.stop

/-- Two windows touch when they overlap or one ends where the other starts. -/
def touches (a b : Window) : Bool := a.start ≤ b.stop && b.start ≤ a.stop

/-- The least window around both. -/
def cover (a b : Window) : Window := ⟨min a.start b.start, max a.stop b.stop⟩

def text (w : Window) : String := "TimeWindow([" ++ toString w.start ++ ", " ++ toString w.stop ++ "))"

/-- Earlier start first, then earlier end. -/
def order : Window → Window → Ordering := compareLex (compareOn start) (compareOn stop)

instance : Ord Window := ⟨order⟩

instance : Std.TransOrd Window :=
  inferInstanceAs (Std.TransCmp (compareLex (compareOn start) (compareOn stop)))

instance : Std.LawfulEqOrd Window where
  eq_of_compare {a b} h := by
    simp only [compare, order, compareLex, Ordering.then_eq_eq] at h
    obtain ⟨h₁, h₂⟩ := h
    cases a
    cases b
    simp only [mk.injEq]
    exact ⟨Std.LawfulEqOrd.eq_of_compare h₁, Std.LawfulEqOrd.eq_of_compare h₂⟩

/-- Ascending order; equal windows are all kept. -/
def sort (ws : List Window) : List Window := ws.mergeSort fun a b => (compare a b).isLE

theorem touches_comm (a b : Window) : a.touches b = b.touches a := by
  simp only [touches, Bool.and_comm]

theorem sort_perm (ws : List Window) : (sort ws).Perm ws := List.mergeSort_perm _ _

end Window

end Tidemark
