import Tidemark.Window.Interval

/-! Session merging: a candidate absorbs every live window that it touches, directly or through
other windows, and grows to cover them all. -/

namespace Tidemark

/-- What became of a candidate: the window it grew to, and the live windows it took in. -/
structure Merger where
  merged : Window
  absorbed : List Window
deriving DecidableEq, Repr

namespace Merger

/-- The candidate lay inside a single live window and changes nothing. -/
def isIdle (m : Merger) : Bool := m.absorbed = [m.merged]

end Merger

namespace Window

/-- The windows that touch `reach`. -/
def within (reach : Window) (ws : List Window) : List Window := ws.filter reach.touches

/-- The windows that do not touch `reach`. -/
def beyond (reach : Window) (ws : List Window) : List Window := ws.filter (!reach.touches ·)

theorem beyond_length_lt {reach : Window} {ws : List Window} (h : within reach ws ≠ []) :
    (beyond reach ws).length < ws.length := by
  obtain ⟨w, hw⟩ := List.exists_mem_of_ne_nil _ h
  obtain ⟨hmem, ht⟩ := List.mem_filter.1 hw
  exact List.length_filter_lt_length_iff_exists.2 ⟨w, hmem, by simp [ht]⟩

/-- Take in what touches `reach`, then what touches the larger window, until nothing does. -/
def absorbFrom (reach : Window) (taken rest : List Window) : Merger :=
  if _h : within reach rest = [] then ⟨reach, taken⟩
  else absorbFrom ((within reach rest).foldl cover reach) (taken ++ within reach rest)
    (beyond reach rest)
termination_by rest.length
decreasing_by exact beyond_length_lt _h

/-- Fold `candidate` into the `live` windows. -/
def absorb (live : List Window) (candidate : Window) : Merger :=
  let m := absorbFrom candidate [] live
  ⟨m.merged, sort m.absorbed⟩

end Window

end Tidemark
