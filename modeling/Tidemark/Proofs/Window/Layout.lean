import Mathlib.Data.List.Nodup
import Tidemark.Proofs.Window.Apart
import Tidemark.Window.Assignment

/-! The windows around an instant. A sound shape lays out ascending frames between the ends of its
hull, so the windows of an instant are distinct and none of them is empty. -/

namespace Tidemark

namespace Timestamp

theorem toInt_ofInt {n : Int} (h : OnLine n) : (Int64.ofInt n).toInt = n :=
  Int64.toInt_ofInt_of_le h.1 (Int.lt_add_one_of_le h.2)

theorem toInt_nearest_eq (n : Int) : (nearest n).toInt = max first.toInt (min n last.toInt) := by
  have hends : first.toInt ≤ last.toInt := by decide
  by_cases hfirst : first.toInt ≤ n
  · by_cases hlast : n ≤ last.toInt
    · rw [toInt_nearest ⟨hfirst, hlast⟩]
      omega
    · have hn : nearest n = last := by
        rw [nearest, Int64.ofIntClamp]
        exact (dif_pos hfirst).trans (dif_neg hlast)
      rw [hn]
      omega
  · have hn : nearest n = first := by
      rw [nearest, Int64.ofIntClamp]
      exact dif_neg hfirst
    rw [hn]
    omega

theorem nearest_mono {m n : Int} (h : m ≤ n) : nearest m ≤ nearest n := by
  rw [Int64.le_iff_toInt_le, toInt_nearest_eq, toInt_nearest_eq]
  omega

end Timestamp

namespace Window

theorem toInt_lastInstant {w : Window} (h : w.Proper) : w.lastInstant.toInt = w.stop.toInt - 1 := by
  rw [proper_iff] at h
  have hstart := w.start.le_toInt
  have hstop := w.stop.toInt_lt
  rw [lastInstant, Int64.toInt_sub, Int64.toInt_one]
  exact Int.bmod_eq_of_le (by omega) (by omega)

end Window

namespace Frame

variable {f g : Frame}

theorem start_toWindow (h : f.OnLine) : f.toWindow.start.toInt = f.start :=
  Timestamp.toInt_ofInt h.1

theorem stop_toWindow (h : f.OnLine) : f.toWindow.stop.toInt = f.stop :=
  Timestamp.toInt_ofInt h.2

/-- Neither end comes later, and the last one comes earlier. -/
def Precedes (f g : Frame) : Prop := f.start ≤ g.start ∧ f.stop < g.stop

theorem toWindow_inj (hf : f.OnLine) (hg : g.OnLine) (h : f.toWindow = g.toWindow) : f = g := by
  have hstart := start_toWindow hf
  have hstop := stop_toWindow hf
  rw [h, start_toWindow hg] at hstart
  rw [h, stop_toWindow hg] at hstop
  obtain ⟨start, stop⟩ := f
  obtain ⟨start', stop'⟩ := g
  simp only at hstart hstop
  rw [hstart, hstop]

end Frame

namespace Shape

theorem pos_of_not_le {n : Int64} (h : ¬ n ≤ 0) : 0 < n.toInt := by
  have := Int64.lt_iff_toInt_lt.1 (Int64.not_le.1 h)
  rwa [Int64.toInt_zero] at this

/-- Multiples of a step that number less than `a / b` lie a step or more below `a`. -/
theorem succ_mul_le {i a b : Int} (hb : 0 < b) (h : i < a / b) : (i + 1) * b ≤ a :=
  Int.le_trans (Int.mul_le_mul_of_nonneg_right h (Int.le_of_lt hb)) (Int.ediv_mul_le a (by omega))

/-- The durations of a sound shape are positive. -/
def Spacious : Shape → Prop
  | tumbling size => 0 < size.toInt
  | hopping size slide => 0 < size.toInt ∧ 0 < slide.toInt
  | cumulating cycle step => 0 < cycle.toInt ∧ 0 < step.toInt
  | session gap => 0 < gap.toInt

theorem spacious_of_flawless {shape : Shape} {offset : Int64} (h : shape.flaw? offset = none) :
    shape.Spacious := by
  cases shape with
  | tumbling size =>
    simp only [flaw?] at h
    split at h
    · cases h
    · next hsize => exact pos_of_not_le hsize
  | hopping size slide =>
    simp only [flaw?] at h
    split at h
    · cases h
    · next hsize =>
      rw [not_or] at hsize
      exact ⟨pos_of_not_le hsize.1, pos_of_not_le hsize.2⟩
  | cumulating cycle step =>
    simp only [flaw?] at h
    split at h
    · cases h
    · next hcycle =>
      rw [not_or] at hcycle
      exact ⟨pos_of_not_le hcycle.1, pos_of_not_le hcycle.2⟩
  | session gap =>
    simp only [flaw?] at h
    split at h
    · cases h
    · next hgap => exact pos_of_not_le hgap

/-- A frame is not empty and lies in the hull. -/
theorem frames_within {shape : Shape} (h : shape.Spacious) (offset t : Int) :
    ∀ f ∈ shape.frames offset t, (shape.hull offset t).start ≤ f.start ∧
      f.start < f.stop ∧ f.stop ≤ (shape.hull offset t).stop := by
  intro f hf
  cases shape with
  | tumbling size =>
    have hsize : 0 < size.toInt := h
    obtain rfl := List.mem_singleton.1 hf
    simp only [hull]
    omega
  | hopping size slide =>
    obtain ⟨hsize, hslide⟩ := h
    obtain ⟨i, hi, rfl⟩ := List.mem_map.1 hf
    rw [List.mem_range] at hi
    have hfit := succ_mul_le (i := i) hslide (by omega : (i : Int) < size.toInt / slide.toInt)
    have hnonneg : 0 ≤ (i : Int) * slide.toInt := Int.mul_nonneg (by omega) (by omega)
    rw [Int.add_mul, Int.one_mul] at hfit
    simp only [hull]
    omega
  | cumulating cycle step =>
    obtain ⟨hcycle, hstep⟩ := h
    obtain ⟨i, hi, rfl⟩ := List.mem_map.1 hf
    rw [List.mem_range] at hi
    generalize ((t - gridFloor offset cycle.toInt t) / step.toInt).toNat = past at hi ⊢
    have hfit := succ_mul_le (i := past + i) hstep
      (by omega : (past + i : Int) < cycle.toInt / step.toInt)
    have hpos : 0 < ((past : Int) + i + 1) * step.toInt := Int.mul_pos (by omega) hstep
    simp only [hull]
    omega
  | session gap =>
    have hgap : 0 < gap.toInt := h
    obtain rfl := List.mem_singleton.1 hf
    simp only [hull]
    omega

/-- Frames between the ends of a hull on the line are on the line. -/
theorem onLine_of_hull {shape : Shape} (h : shape.Spacious) {offset t : Int}
    (hhull : (shape.hull offset t).OnLine) : ∀ f ∈ shape.frames offset t, f.OnLine := by
  intro f hf
  obtain ⟨hstart, hproper, hstop⟩ := frames_within h offset t f hf
  have hfirst := hhull.1.1
  have hlast := hhull.2.2
  exact ⟨⟨by omega, by omega⟩, ⟨by omega, by omega⟩⟩

/-- The frames ascend. -/
theorem pairwise_frames {shape : Shape} (h : shape.Spacious) (offset t : Int) :
    (shape.frames offset t).Pairwise Frame.Precedes := by
  cases shape with
  | tumbling size => exact List.pairwise_singleton _ _
  | hopping size slide =>
    refine List.pairwise_map.2 (List.pairwise_lt_range.imp fun {i j} hij => ?_)
    have hmul := Int.mul_lt_mul_of_pos_right (Int.ofNat_lt.2 hij) h.2
    constructor <;> dsimp only <;> omega
  | cumulating cycle step =>
    refine List.pairwise_map.2 (List.pairwise_lt_range.imp fun {i j} hij => ?_)
    refine ⟨Int.le_refl _, Int.add_lt_add_left (Int.mul_lt_mul_of_pos_right ?_ h.2) _⟩
    omega
  | session gap => exact List.pairwise_singleton _ _

theorem nodup_frames {shape : Shape} (h : shape.Spacious) (offset t : Int) :
    (shape.frames offset t).Nodup := by
  refine (pairwise_frames h offset t).imp ?_
  rintro f g hfg rfl
  exact Int.lt_irrefl _ hfg.2

end Shape

namespace Policy

theorem spacious {p : Policy} (h : p.flaw? = none) : p.shape.Spacious := by
  unfold flaw? at h
  split at h
  · cases h
  · split at h
    · cases h
    · exact Shape.spacious_of_flawless h

/-- The windows of an instant are distinct and not empty. -/
theorem windowsAt_spec {p : Policy} (h : p.flaw? = none) {t : Timestamp} {ws : List Window}
    (hws : p.windowsAt t = some ws) : ws.Nodup ∧ ∀ w ∈ ws, w.Proper := by
  unfold windowsAt at hws
  split at hws
  · next hhull =>
    obtain rfl := Option.some.inj hws
    have hwithin := Shape.frames_within (spacious h) p.offset.toInt t.toInt
    have hline := Shape.onLine_of_hull (spacious h) hhull
    refine ⟨(Shape.nodup_frames (spacious h) _ _).map_on fun f hf g hg hfg =>
      Frame.toWindow_inj (hline f hf) (hline g hg) hfg, fun w hw => ?_⟩
    obtain ⟨f, hf, rfl⟩ := List.mem_map.1 hw
    rw [Window.proper_iff, Frame.start_toWindow (hline f hf), Frame.stop_toWindow (hline f hf)]
    exact (hwithin f hf).2.1
  · cases hws

/-- A window that ends later fires no earlier. -/
theorem firesAt_mono (p : Policy) {v w : Window} (hv : v.Proper) (hw : w.Proper)
    (h : v.stop.toInt ≤ w.stop.toInt) : p.firesAt v ≤ p.firesAt w := by
  apply Timestamp.nearest_mono
  rw [Window.toInt_lastInstant hv, Window.toInt_lastInstant hw]
  omega

end Policy

end Tidemark
