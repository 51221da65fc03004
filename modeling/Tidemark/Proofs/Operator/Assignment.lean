import Mathlib.Data.Int.ModEq
import Mathlib.Data.List.Sort
import Mathlib.Data.Set.Card
import Mathlib.Order.Bounds.Basic
import Mathlib.Tactic.Ring
import Tidemark.Proofs.Operator.Running

/-! The windows that a record goes to. What lies around an instant is said over the integers, by
congruence and order alone; a sound policy lays out exactly these frames, in ascending order, and
refuses the instant exactly when one of them leaves the time line. They are also the frames that are
met one after another, by steps back from the newest start or on from the start of a cycle. -/

namespace Tidemark

theorem isGreatest_gridFloor {width : ℤ} (h : 0 < width) (offset t : ℤ) :
    IsGreatest {b | b ≤ t ∧ b ≡ offset [ZMOD width]} (gridFloor offset width t) := by
  have hgrid : gridFloor offset width t ≡ offset [ZMOD width] :=
    (Int.modEq_iff_dvd.2 dvd_gridFloor_sub).symm
  refine ⟨⟨gridFloor_le h, hgrid⟩, fun b hb => ?_⟩
  obtain ⟨hle, hb⟩ := hb
  obtain ⟨k, hk⟩ : width ∣ b - gridFloor offset width t :=
    Int.modEq_iff_dvd.1 (hgrid.trans hb.symm)
  have hnext : t < gridFloor offset width t + width := lt_gridFloor_add h
  have hk1 : k < 1 := Int.lt_of_mul_lt_mul_left (a := width) (by omega) (Int.le_of_lt h)
  have hk0 : width * k ≤ 0 := Int.mul_nonpos_of_nonneg_of_nonpos (Int.le_of_lt h) (by omega)
  omega

namespace Frame

/-- The instant lies inside. -/
def Around (t : ℤ) (f : Frame) : Prop := f.start ≤ t ∧ t < f.stop

end Frame

namespace Window

/-- The window over the integers. -/
def frame (w : Window) : Frame := ⟨w.start.toInt, w.stop.toInt⟩

theorem frame_toWindow {f : Frame} (h : f.OnLine) : f.toWindow.frame = f := by
  rw [frame, Frame.start_toWindow h, Frame.stop_toWindow h]

theorem contains_iff {w : Window} {t : Timestamp} : w.contains t ↔ w.frame.Around t.toInt := by
  simp only [contains, Bool.and_eq_true, decide_eq_true_eq, Int64.le_iff_toInt_le,
    Int64.lt_iff_toInt_lt, Frame.Around, frame]

theorem lt_of_precedes {v w : Window} (h : v.frame.Precedes w.frame) : compare v w = .lt := by
  obtain ⟨hstart, hstop⟩ := h
  rcases Int.lt_or_eq_of_le hstart with hlt | heq
  · exact lt_of_start_lt hlt
  · have hsame : compare v.start w.start = .eq := Std.compare_eq_iff_eq.2 (Int64.toInt_inj.1 heq)
    have hless : compare v.stop w.stop = .lt := Std.compare_eq_lt.2 (Int64.lt_iff_toInt_lt.2 hstop)
    show (compare v.start w.start).then (compare v.stop w.stop) = .lt
    rw [hsame, hless]
    rfl

end Window

namespace Shape

/-- The frames of a shape around the instant `t`, when its grid goes through `offset`. -/
def around (offset t : ℤ) : Shape → Set Frame
  | tumbling size =>
    {f | f.stop = f.start + size.toInt ∧ f.start ≡ offset [ZMOD size.toInt] ∧ f.Around t}
  | hopping size slide =>
    {f | f.stop = f.start + size.toInt ∧ f.start ≡ offset [ZMOD slide.toInt] ∧ f.Around t}
  | cumulating cycle step =>
    {f | IsGreatest {b | b ≤ t ∧ b ≡ offset [ZMOD cycle.toInt]} f.start ∧
      ∃ k, 1 ≤ k ∧ k ≤ cycle.toInt / step.toInt ∧ f.stop = f.start + k * step.toInt ∧ t < f.stop}
  | session gap => {⟨t, t + gap.toInt⟩}

/-- Slides and steps divide what they are a part of. -/
def Regular : Shape → Prop
  | hopping size slide => slide.toInt ∣ size.toInt
  | cumulating cycle step => step.toInt ∣ cycle.toInt
  | _ => True

theorem regular_of_flawless {shape : Shape} {offset : Int64} (h : shape.flaw? offset = none) :
    shape.Regular := by
  cases shape with
  | tumbling size => trivial
  | hopping size slide =>
    simp only [flaw?] at h
    split at h
    · cases h
    · split at h
      · cases h
      · next hmultiple =>
        rw [not_or, not_not] at hmultiple
        exact Int.dvd_of_emod_eq_zero hmultiple.2
  | cumulating cycle step =>
    simp only [flaw?] at h
    split at h
    · cases h
    · split at h
      · cases h
      · next hmultiple => exact Int.dvd_of_emod_eq_zero (not_not.1 hmultiple)
  | session gap => trivial

/-! ### The frames that are laid out -/

variable {shape : Shape} {offset t : ℤ} {size slide cycle step : Int64} {f : Frame}

theorem mem_frames_hopping (hslide : 0 < slide.toInt) (hwhole : slide.toInt ∣ size.toInt) :
    f ∈ (hopping size slide).frames offset t ↔ f ∈ (hopping size slide).around offset t := by
  obtain ⟨⟨hfloor, hgrid⟩, hnewest⟩ := isGreatest_gridFloor hslide offset t
  have hnext : t < gridFloor offset slide.toInt t + slide.toInt := lt_gridFloor_add hslide
  obtain ⟨n, hn⟩ := hwhole
  simp only [frames, around, List.mem_map, List.mem_range, Set.mem_ofPred_eq, hn,
    Int.mul_ediv_cancel_left n (Int.ne_of_gt hslide)]
  generalize gridFloor offset slide.toInt t = newest at *
  -- the frames counted up from the oldest are those counted down from the newest
  have hcount : ∀ i : ℤ, newest - slide.toInt * n + slide.toInt + i * slide.toInt =
      newest - slide.toInt * (n - 1 - i) := by
    intro i
    ring
  constructor
  · rintro ⟨i, hi, rfl⟩
    have hback : 0 ≤ slide.toInt * (n - 1 - i) := Int.mul_nonneg (by omega) (by omega)
    have hover : 0 ≤ i * slide.toInt := Int.mul_nonneg (by omega) (by omega)
    have hcount := hcount i
    refine ⟨rfl, ?_, ?_, ?_⟩
    · rw [hcount]
      exact (Int.modEq_iff_dvd.2 ⟨n - 1 - i, Int.sub_sub_self ..⟩).trans hgrid
    · dsimp only
      omega
    · dsimp only
      omega
  · rintro ⟨hstop, hmod, hle, hlt⟩
    obtain ⟨j, hj⟩ : slide.toInt ∣ newest - f.start := Int.modEq_iff_dvd.1 (hmod.trans hgrid.symm)
    have hold : f.start ≤ newest := hnewest ⟨hle, hmod⟩
    have hj0 : -1 < j := Int.lt_of_mul_lt_mul_left (a := slide.toInt) (by omega) (by omega)
    have hjn : j < n := Int.lt_of_mul_lt_mul_left (a := slide.toInt) (by omega) (by omega)
    have hstart : newest - slide.toInt * (n - 1 - (n - 1 - j)) = f.start := by
      rw [Int.sub_sub_self]
      omega
    refine ⟨(n - 1 - j).toNat, by omega, ?_⟩
    rw [Int.toNat_of_nonneg (by omega), hcount, hstart, ← hstop]

/-- A tumbling frame hops by its own size. -/
theorem frames_tumbling (hsize : 0 < size.toInt) :
    (tumbling size).frames offset t = (hopping size size).frames offset t := by
  simp [frames, Int.ediv_self (Int.ne_of_gt hsize)]

theorem mem_frames_cumulating (hcycle : 0 < cycle.toInt) (hstep : 0 < step.toInt) :
    f ∈ (cumulating cycle step).frames offset t ↔
      f ∈ (cumulating cycle step).around offset t := by
  have hbase := isGreatest_gridFloor hcycle offset t
  simp only [frames, around, List.mem_map, List.mem_range, Set.mem_ofPred_eq]
  generalize gridFloor offset cycle.toInt t = base at *
  have hle : base ≤ t := hbase.1.1
  have hpast := Int.ediv_nonneg (show 0 ≤ t - base by omega) (Int.le_of_lt hstep)
  -- a frame is open as long as it has more steps than have gone by
  have hopen : ∀ k : ℤ, t < base + k * step.toInt ↔ (t - base) / step.toInt < k := by
    intro k
    rw [Int.ediv_lt_iff_lt_mul hstep]
    omega
  constructor
  · rintro ⟨i, hi, rfl⟩
    refine ⟨hbase, ((t - base) / step.toInt).toNat + i + 1, by omega, by omega, rfl, ?_⟩
    rw [hopen]
    omega
  · rintro ⟨hgreatest, k, hk1, hkn, hstop, hlt⟩
    have hstart : f.start = base := hgreatest.unique hbase
    rw [hstop, hstart, hopen] at hlt
    have hcount : (((t - base) / step.toInt).toNat : ℤ) +
        (k - 1 - (t - base) / step.toInt).toNat + 1 = k := by omega
    refine ⟨(k - 1 - (t - base) / step.toInt).toNat, by omega, ?_⟩
    rw [hcount, ← hstart, ← hstop]

/-- What is laid out is what lies around the instant. -/
theorem mem_frames (h : shape.Spacious) (hr : shape.Regular) :
    f ∈ shape.frames offset t ↔ f ∈ shape.around offset t := by
  cases shape with
  | tumbling size =>
    rw [frames_tumbling h]
    exact mem_frames_hopping h (Int.dvd_refl _)
  | hopping size slide => exact mem_frames_hopping h.2 hr
  | cumulating cycle step => exact mem_frames_cumulating h.1 h.2
  | session gap => exact List.mem_singleton

theorem around_of_mem (h : shape.Spacious) (hf : f ∈ shape.around offset t) : f.Around t := by
  cases shape with
  | tumbling size => exact hf.2.2
  | hopping size slide => exact hf.2.2
  | cumulating cycle step =>
    obtain ⟨hgreatest, _, _, _, _, hlt⟩ := hf
    exact ⟨hgreatest.1.1, hlt⟩
  | session gap =>
    have hgap : 0 < gap.toInt := h
    obtain rfl := hf
    exact ⟨Int.le_refl t, by dsimp only; omega⟩

/-- The hull starts where some frame around the instant does, and ends where some frame does. -/
theorem exists_ends (h : shape.Spacious) (hr : shape.Regular) (offset t : ℤ) :
    ∃ f ∈ shape.around offset t, ∃ g ∈ shape.around offset t,
      f.start = (shape.hull offset t).start ∧ g.stop = (shape.hull offset t).stop := by
  have hsole : shape.hull offset t ∈ shape.around offset t →
      ∃ f ∈ shape.around offset t, ∃ g ∈ shape.around offset t,
        f.start = (shape.hull offset t).start ∧ g.stop = (shape.hull offset t).stop :=
    fun hmem => ⟨_, hmem, _, hmem, rfl, rfl⟩
  cases shape with
  | tumbling size =>
    obtain ⟨hfloor, hgrid⟩ := (isGreatest_gridFloor h offset t).1
    exact hsole ⟨rfl, hgrid, hfloor, lt_gridFloor_add h⟩
  | hopping size slide =>
    obtain ⟨hsize, hslide⟩ := h
    obtain ⟨hfloor, hgrid⟩ := (isGreatest_gridFloor hslide offset t).1
    have hnext : t < gridFloor offset slide.toInt t + slide.toInt := lt_gridFloor_add hslide
    have hle : slide.toInt ≤ size.toInt := Int.le_of_dvd hsize hr
    obtain ⟨n, hn⟩ := hr
    refine ⟨⟨gridFloor offset slide.toInt t - size.toInt + slide.toInt,
      gridFloor offset slide.toInt t + slide.toInt⟩, ⟨?_, ?_, ?_, hnext⟩,
      ⟨gridFloor offset slide.toInt t, gridFloor offset slide.toInt t + size.toInt⟩,
      ⟨rfl, hgrid, hfloor, ?_⟩, rfl, rfl⟩
    · dsimp only
      omega
    · refine (Int.modEq_iff_dvd.2 ⟨n - 1, ?_⟩).trans hgrid
      rw [hn]
      ring
    · dsimp only
      omega
    · dsimp only
      omega
  | cumulating cycle step =>
    obtain ⟨hcycle, hstep⟩ := h
    have hle : step.toInt ≤ cycle.toInt := Int.le_of_dvd hcycle hr
    have hone : 1 ≤ cycle.toInt / step.toInt := (Int.le_ediv_iff_mul_le hstep).2 (by omega)
    refine hsole ⟨isGreatest_gridFloor hcycle offset t, cycle.toInt / step.toInt, hone,
      Int.le_refl _, ?_, lt_gridFloor_add hcycle⟩
    rw [Int.ediv_mul_cancel hr]
    rfl
  | session gap => exact hsole rfl

/-- The hull is on the line when every frame around the instant is. -/
theorem onLine_hull_iff (h : shape.Spacious) (hr : shape.Regular) (offset t : ℤ) :
    (shape.hull offset t).OnLine ↔ ∀ f ∈ shape.around offset t, f.OnLine := by
  constructor
  · intro hhull f hf
    exact onLine_of_hull h hhull f ((mem_frames h hr).2 hf)
  · intro hall
    obtain ⟨f, hf, g, hg, hstart, hstop⟩ := exists_ends h hr offset t
    exact ⟨hstart ▸ (hall f hf).1, hstop ▸ (hall g hg).2⟩

/-- Slides divide the frames that hop over an instant among them. -/
theorem ncard_around_hopping (h : (hopping size slide).Spacious)
    (hr : (hopping size slide).Regular) (offset t : ℤ) :
    (((hopping size slide).around offset t).ncard : ℤ) = size.toInt / slide.toInt := by
  have hframes : (hopping size slide).around offset t =
      (((hopping size slide).frames offset t).toFinset : Set Frame) := by
    ext f
    rw [List.coe_toFinset, Set.mem_ofPred_eq, mem_frames h hr]
  rw [hframes, Set.ncard_coe_finset, List.toFinset_card_of_nodup (nodup_frames h offset t)]
  simp only [frames, List.length_map, List.length_range]
  exact Int.toNat_of_nonneg (Int.ediv_nonneg (Int.le_of_lt h.1) (Int.le_of_lt h.2))

end Shape

namespace Policy

theorem regular {p : Policy} (h : p.flaw? = none) : p.shape.Regular := by
  unfold flaw? at h
  split at h
  · cases h
  · split at h
    · cases h
    · exact Shape.regular_of_flawless h

variable {p : Policy} {t : Timestamp} {ws : List Window}

theorem windowsAt_eq_none_iff (h : p.flaw? = none) : p.windowsAt t = none ↔
    ∃ f ∈ p.shape.around p.offset.toInt t.toInt, ¬ f.OnLine := by
  have hhull := Shape.onLine_hull_iff (spacious h) (regular h) p.offset.toInt t.toInt
  unfold windowsAt
  split
  · next hon => simpa using hhull.1 hon
  · next hoff =>
    rw [hhull] at hoff
    simpa using hoff

/-- On the line the windows are the frames that are laid out. -/
theorem map_frame_windowsAt (h : p.flaw? = none) (hws : p.windowsAt t = some ws) :
    ws.map Window.frame = p.shape.frames p.offset.toInt t.toInt := by
  unfold windowsAt at hws
  split at hws
  · next hhull =>
    obtain rfl := Option.some.inj hws
    have hline := Shape.onLine_of_hull (spacious h) hhull
    rw [List.map_map]
    exact (List.map_congr_left fun f hf => Window.frame_toWindow (hline f hf)).trans
      (List.map_id' _)
  · cases hws

end Policy

/-! ### The windows met one after another -/

namespace Frame

/-- The window of a frame, if both of its ends lie on the line. -/
def toWindow? (f : Frame) : Option Window := if f.OnLine then some f.toWindow else none

theorem mapM_toWindow? (fs : List Frame) :
    fs.mapM toWindow? = if ∀ f ∈ fs, f.OnLine then some (fs.map toWindow) else none := by
  induction fs with
  | nil => rfl
  | cons f fs ih =>
    rw [List.mapM_cons, ih, toWindow?]
    simp only [List.forall_mem_cons]
    by_cases hall : f.OnLine ∧ ∀ g ∈ fs, g.OnLine
    · rw [if_pos hall, if_pos hall.1, if_pos hall.2]
      rfl
    · rw [if_neg hall]
      by_cases hf : f.OnLine
      · rw [if_pos hf, if_neg fun hfs => hall ⟨hf, hfs⟩]
        rfl
      · rw [if_neg hf]
        rfl

end Frame

namespace Shape

/-- The frames of `size` that a walk back by `slide` meets from `start` on, as long as they reach
beyond `t`. -/
def walkBack (size slide t start : ℤ) : List Frame :=
  if _h : 0 < slide ∧ t - size < start then
    ⟨start, start + size⟩ :: walkBack size slide t (start - slide)
  else []
termination_by (start - (t - size)).toNat

/-- The ends of `count` steps from `base` on that lie behind `t`. -/
def endsBehind (base step t : ℤ) (count : ℕ) : List ℤ :=
  ((List.range' 1 count).map fun k : ℕ => base + k * step).filter (t < ·)

/-- The windows around `t` as they are met one after another, until one leaves the line. -/
def search (offset t : ℤ) : Shape → Option (List Window)
  | tumbling size =>
    let start := gridFloor offset size.toInt t
    [⟨start, start + size.toInt⟩].mapM Frame.toWindow?
  | hopping size slide =>
    let newest := gridFloor offset slide.toInt t
    List.reverse <$> (walkBack size.toInt slide.toInt t newest).mapM Frame.toWindow?
  | cumulating cycle step =>
    let base := gridFloor offset cycle.toInt t
    (endsBehind base step.toInt t (cycle.toInt / step.toInt).toNat).mapM
      fun stop => Frame.toWindow? ⟨base, stop⟩
  | session gap => [⟨t, t + gap.toInt⟩].mapM Frame.toWindow?

variable {shape : Shape} {offset t : ℤ} {size slide cycle step : Int64}

/-- A walk back that meets `n` frames, read from its end. -/
theorem reverse_walkBack {size slide t : ℤ} (hslide : 0 < slide) {n : ℕ} {start : ℤ}
    (hend : start ≤ t - size + n * slide) (hlast : t - size + n * slide < start + slide) :
    (walkBack size slide t start).reverse = (List.range n).map fun i : ℕ =>
      (⟨start - n * slide + slide + i * slide,
        start - n * slide + slide + i * slide + size⟩ : Frame) := by
  induction n generalizing start with
  | zero =>
    rw [walkBack, dif_neg (by omega)]
    rfl
  | succ n ih =>
    have hsteps : ((n + 1 : ℕ) : ℤ) * slide = n * slide + slide := by
      push_cast
      ring
    have hmore : 0 ≤ (n : ℤ) * slide := Int.mul_nonneg (by omega) (by omega)
    rw [hsteps] at hend hlast ⊢
    rw [walkBack, dif_pos ⟨hslide, by omega⟩, List.reverse_cons, ih (by omega) (by omega),
      List.range_succ, List.map_append, List.map_singleton]
    have hfirst : start - slide - n * slide + slide = start - (n * slide + slide) + slide := by
      omega
    have hnew : start - (n * slide + slide) + slide + n * slide = start := by omega
    rw [hfirst, hnew]

theorem frames_hopping (h : (hopping size slide).Spacious) (hr : (hopping size slide).Regular) :
    (hopping size slide).frames offset t =
      (walkBack size.toInt slide.toInt t (gridFloor offset slide.toInt t)).reverse := by
  obtain ⟨n, hn⟩ := hr
  have hfloor : gridFloor offset slide.toInt t ≤ t := gridFloor_le h.2
  have hnext : t < gridFloor offset slide.toInt t + slide.toInt := lt_gridFloor_add h.2
  have hcount : size.toInt / slide.toInt = n := by
    rw [hn, Int.mul_ediv_cancel_left n (Int.ne_of_gt h.2)]
  have hsize : ((size.toInt / slide.toInt).toNat : ℤ) * slide.toInt = size.toInt := by
    rw [Int.toNat_of_nonneg (Int.ediv_nonneg (Int.le_of_lt h.1) (Int.le_of_lt h.2)), hcount, hn,
      Int.mul_comm]
  rw [reverse_walkBack (n := (size.toInt / slide.toInt).toNat) h.2 (by omega) (by omega), hsize]
  rfl

theorem frames_cumulating (h : (cumulating cycle step).Spacious) :
    (cumulating cycle step).frames offset t =
      (endsBehind (gridFloor offset cycle.toInt t) step.toInt t
        (cycle.toInt / step.toInt).toNat).map (⟨gridFloor offset cycle.toInt t, ·⟩) := by
  have hle : gridFloor offset cycle.toInt t ≤ t := gridFloor_le h.1
  simp only [frames, endsBehind]
  generalize gridFloor offset cycle.toInt t = base at *
  generalize (cycle.toInt / step.toInt).toNat = count
  have hpast := Int.ediv_nonneg (show 0 ≤ t - base by omega) (Int.le_of_lt h.2)
  have hopen : ∀ k : ℕ, t < base + k * step.toInt ↔ ((t - base) / step.toInt).toNat < k := by
    intro k
    have hlt := Int.ediv_lt_iff_lt_mul (a := t - base) (b := k) h.2
    omega
  generalize ((t - base) / step.toInt).toNat = past at *
  have hahead : (List.range' 1 count).filter (past < ·) =
      List.range' (past + 1) (count - past) := by
    refine (List.Pairwise.filter _ List.pairwise_lt_range').eq_of_mem_iff
      List.pairwise_lt_range' fun k => ?_
    simp only [List.mem_filter, List.mem_range'_1, decide_eq_true_eq]
    omega
  rw [List.filter_map]
  simp only [Function.comp_def, hopen]
  rw [hahead, List.range'_eq_map_range, List.map_map, List.map_map]
  refine List.map_congr_left fun i _ => ?_
  simp only [Function.comp_apply]
  congr 2
  push_cast
  ring

/-- What is met are the frames that are laid out, unless one of them leaves the line. -/
theorem search_eq (h : shape.Spacious) (hr : shape.Regular) (offset t : ℤ) :
    shape.search offset t =
      if ∀ f ∈ shape.frames offset t, f.OnLine then
        some ((shape.frames offset t).map Frame.toWindow)
      else none := by
  cases shape with
  | tumbling size => exact Frame.mapM_toWindow? _
  | hopping size slide =>
    rw [frames_hopping h hr, search, Frame.mapM_toWindow?]
    simp only [List.mem_reverse, List.map_reverse]
    split <;> rfl
  | cumulating cycle step =>
    rw [frames_cumulating h, ← Frame.mapM_toWindow?, List.mapM_map]
    rfl
  | session gap => exact Frame.mapM_toWindow? _

end Shape

namespace Policy

/-- The windows around an instant can be met one after another, each of them with its own check that
it does not leave the line. -/
theorem windowsAt_eq_search {p : Policy} (h : p.flaw? = none) (t : Timestamp) :
    p.windowsAt t = p.shape.search p.offset.toInt t.toInt := by
  have hhull := Shape.onLine_hull_iff (spacious h) (regular h) p.offset.toInt t.toInt
  simp only [← Shape.mem_frames (spacious h) (regular h)] at hhull
  rw [windowsAt, Shape.search_eq (spacious h) (regular h)]
  simp only [hhull]

end Policy

/-! ### The windows that a record goes to -/

/-- The windows of an instant are the frames around it: each of them once, ascending by start and
end, and by firing time. One tumbles over it, as many hop over it as slides go into a window, and
there is always one. The instant is refused, and so is a record that is stamped with it, exactly
when some frame around it leaves the line. -/
theorem Policy.windowsAt_exact (p : SoundPolicy) (t : Timestamp) :
    let around := p.val.shape.around p.val.offset.toInt t.toInt
    around.Nonempty ∧
    (∀ size, p.val.shape = .tumbling size → ∃ f, around = {f}) ∧
    (∀ size slide, p.val.shape = .hopping size slide →
      (around.ncard : ℤ) = size.toInt / slide.toInt) ∧
    (p.val.windowsAt t = none ↔ ∃ f ∈ around, ¬ f.OnLine) ∧
    (∀ ws, p.val.windowsAt t = some ws →
      (∀ f, f ∈ ws.map Window.frame ↔ f ∈ around) ∧
      ws.Pairwise (fun v w => compare v w = .lt) ∧
      ws.Pairwise (fun v w => p.val.firesAt v ≤ p.val.firesAt w) ∧
      ∀ w ∈ ws, w.contains t) ∧
    ∀ {κ ν α ω : Type} [Encoding κ] [Encoding α] (job : Job κ ν α ω) (o : Operator κ α ω)
      (now s : Timestamp) (key : κ) (v : ν), job.policy = p → job.stamp now s = t →
      o.status = .running → (∃ f ∈ around, ¬ f.OnLine) →
      job.feed now key s v o = .error (.offTheLine t) o := by
  intro around
  have hspacious := spacious p.property
  have hregular := regular p.property
  have hnone := windowsAt_eq_none_iff (t := t) p.property
  refine ⟨?_, fun size hshape => ?_, fun size slide hshape => ?_, hnone, fun ws hws => ?_, ?_⟩
  · obtain ⟨f, hf, _⟩ := Shape.exists_ends hspacious hregular p.val.offset.toInt t.toInt
    exact ⟨f, hf⟩
  · rw [hshape] at hspacious
    have hcount := Shape.ncard_around_hopping ⟨hspacious, hspacious⟩ (Int.dvd_refl size.toInt)
      p.val.offset.toInt t.toInt
    rw [Int.ediv_self (Int.ne_of_gt hspacious)] at hcount
    simp only [around, hshape]
    exact Set.ncard_eq_one.1 (by exact_mod_cast hcount)
  · rw [hshape] at hspacious hregular
    simp only [around, hshape]
    exact Shape.ncard_around_hopping hspacious hregular _ _
  · have hframes := map_frame_windowsAt p.property hws
    have hmem : ∀ f, f ∈ ws.map Window.frame ↔ f ∈ around := fun f => by
      rw [hframes]
      exact Shape.mem_frames hspacious hregular
    have hascending : ws.Pairwise fun v w => v.frame.Precedes w.frame := by
      rw [← List.pairwise_map, hframes]
      exact Shape.pairwise_frames hspacious _ _
    have hproper := (windowsAt_spec p.property hws).2
    refine ⟨hmem, hascending.imp Window.lt_of_precedes,
      hascending.imp_of_mem fun {v w} hv hw hvw => ?_, fun w hw => ?_⟩
    · exact p.val.firesAt_mono (hproper v hv) (hproper w hw) (Int.le_of_lt hvw.2)
    · exact Window.contains_iff.2
        (Shape.around_of_mem hspacious ((hmem _).1 (List.mem_map_of_mem hw)))
  · rintro κ ν α ω _ _ job o now s key v rfl rfl hrun hoff
    exact job.feed_offTheLine hrun (hnone.2 hoff) key v

/-- Towards the end of the line, the first instant with a window that would leave it is refused. -/
example :
    let p : Policy := { shape := .hopping 6 3, offset := 2 }
    p.windowsAt (Timestamp.last - 6) = some [⟨Timestamp.last - 11, Timestamp.last - 5⟩,
      ⟨Timestamp.last - 8, Timestamp.last - 2⟩] ∧ p.windowsAt (Timestamp.last - 5) = none := by
  decide

end Tidemark
