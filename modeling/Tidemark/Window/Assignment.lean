import Tidemark.Window.Interval
import Tidemark.Window.Policy

/-! The windows of an instant. They are laid out over the integers first, as frames, and become
windows only if every frame lies on the time line. `Policy.windowsAt_eq_search` says that these are
the windows that are met one after another, each with a check of its own. -/

namespace Tidemark

/-- A half-open interval of the integers. -/
structure Frame where
  start : Int
  stop : Int
deriving DecidableEq, Repr

namespace Frame

def OnLine (f : Frame) : Prop := Timestamp.OnLine f.start ∧ Timestamp.OnLine f.stop

instance (f : Frame) : Decidable f.OnLine := inferInstanceAs (Decidable (_ ∧ _))

def toWindow (f : Frame) : Window := ⟨.ofInt f.start, .ofInt f.stop⟩

end Frame

/-- The greatest point up to `t` of the grid of width `width` through `offset`. -/
def gridFloor (offset width t : Int) : Int := t - (t - offset) % width

section gridFloor

variable {offset width t : Int}

theorem gridFloor_le (h : 0 < width) : gridFloor offset width t ≤ t := by
  have := Int.emod_nonneg (t - offset) (Int.ne_of_gt h)
  simp only [gridFloor]
  omega

theorem lt_gridFloor_add (h : 0 < width) : t < gridFloor offset width t + width := by
  have := Int.emod_lt_of_pos (t - offset) h
  simp only [gridFloor]
  omega

/-- It is on the grid. -/
theorem dvd_gridFloor_sub : width ∣ gridFloor offset width t - offset := by
  have h : gridFloor offset width t - offset = t - offset - (t - offset) % width := by
    simp only [gridFloor]
    omega
  rw [h]
  exact Int.dvd_self_sub_emod

end gridFloor

namespace Shape

/-- The frames around the instant `t`, ascending. -/
def frames (offset t : Int) : Shape → List Frame
  | tumbling size =>
    let s := gridFloor offset size.toInt t
    [⟨s, s + size.toInt⟩]
  | hopping size slide =>
    let oldest := gridFloor offset slide.toInt t - size.toInt + slide.toInt
    (List.range (size.toInt / slide.toInt).toNat).map fun i : Nat =>
      let s := oldest + i * slide.toInt
      ⟨s, s + size.toInt⟩
  | cumulating cycle step =>
    let base := gridFloor offset cycle.toInt t
    let past := ((t - base) / step.toInt).toNat
    (List.range ((cycle.toInt / step.toInt).toNat - past)).map fun i : Nat =>
      ⟨base, base + (past + i + 1) * step.toInt⟩
  | session gap => [⟨t, t + gap.toInt⟩]

/-- From the start of the first frame around `t` to the end of the last. -/
def hull (offset t : Int) : Shape → Frame
  | tumbling size =>
    let s := gridFloor offset size.toInt t
    ⟨s, s + size.toInt⟩
  | hopping size slide =>
    let newest := gridFloor offset slide.toInt t
    ⟨newest - size.toInt + slide.toInt, newest + size.toInt⟩
  | cumulating cycle _ =>
    let base := gridFloor offset cycle.toInt t
    ⟨base, base + cycle.toInt⟩
  | session gap => ⟨t, t + gap.toInt⟩

end Shape

namespace Policy

/-- The windows around `t`, ascending; `none` when one of them would leave the time line. -/
def windowsAt (p : Policy) (t : Timestamp) : Option (List Window) :=
  if (p.shape.hull p.offset.toInt t.toInt).OnLine then
    some ((p.shape.frames p.offset.toInt t.toInt).map Frame.toWindow)
  else none

/-- Progress that fires `w`: its last instant, put off by the lateness. -/
def firesAt (p : Policy) (w : Window) : Timestamp := w.lastInstant.shift p.lateness

/-- Progress has already fired `w`. -/
def isLate (p : Policy) (w : Window) (progress : Timestamp) : Bool := p.firesAt w ≤ progress

end Policy

end Tidemark
