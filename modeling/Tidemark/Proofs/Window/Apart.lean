import Mathlib.Algebra.Group.Int.Defs
import Mathlib.Algebra.Group.Nat.Defs
import Mathlib.Data.List.Pairwise
import Tidemark.Window.Merging

/-! Windows that lie apart: each ends before the next one starts. Windows that do not touch each
other lie apart once they are sorted, and there are fewer of them than there are instants. -/

namespace Tidemark

namespace Timestamp

theorem toInt_min (s t : Timestamp) : (min s t).toInt = min s.toInt t.toInt := by
  show (if s ≤ t then s else t).toInt = _
  by_cases h : s ≤ t
  · rw [if_pos h, Int.min_eq_left (Int64.le_iff_toInt_le.1 h)]
  · rw [if_neg h, Int.min_eq_right]
    exact Int64.le_iff_toInt_le.1 ((Int64.le_total s t).resolve_left h)

theorem toInt_max (s t : Timestamp) : (max s t).toInt = max s.toInt t.toInt := by
  show (if s ≤ t then t else s).toInt = _
  by_cases h : s ≤ t
  · rw [if_pos h, Int.max_eq_right (Int64.le_iff_toInt_le.1 h)]
  · rw [if_neg h, Int.max_eq_left]
    exact Int64.le_iff_toInt_le.1 ((Int64.le_total s t).resolve_left h)

end Timestamp

namespace Window

variable {a b c w : Window} {live hits : List Window}

theorem eq_of_toInt (hstart : a.start.toInt = b.start.toInt) (hstop : a.stop.toInt = b.stop.toInt) :
    a = b := by
  obtain ⟨start, stop⟩ := a
  obtain ⟨start', stop'⟩ := b
  rw [mk.injEq]
  exact ⟨Int64.toInt_inj.1 hstart, Int64.toInt_inj.1 hstop⟩

/-- A window that holds some instant. -/
def Proper (w : Window) : Prop := w.start < w.stop

theorem proper_iff : w.Proper ↔ w.start.toInt < w.stop.toInt := Int64.lt_iff_toInt_lt

theorem touches_iff :
    a.touches b ↔ a.start.toInt ≤ b.stop.toInt ∧ b.start.toInt ≤ a.stop.toInt := by
  simp only [touches, Bool.and_eq_true, decide_eq_true_eq, Int64.le_iff_toInt_le]

theorem touches_self (h : w.Proper) : w.touches w := by
  rw [proper_iff] at h
  rw [touches_iff]
  omega

theorem start_cover : (a.cover b).start.toInt = min a.start.toInt b.start.toInt :=
  Timestamp.toInt_min _ _

theorem stop_cover : (a.cover b).stop.toInt = max a.stop.toInt b.stop.toInt :=
  Timestamp.toInt_max _ _

theorem touches_cover_left (h : w.touches a) : w.touches (a.cover b) := by
  rw [touches_iff] at h ⊢
  rw [start_cover, stop_cover]
  omega

/-- What touches the cover of two touching windows touches one of them. -/
theorem touches_of_cover (hw : w.Proper) (hab : a.touches b) (h : (a.cover b).touches w) :
    a.touches w ∨ b.touches w := by
  rw [proper_iff] at hw
  rw [touches_iff] at hab h ⊢
  rw [touches_iff]
  rw [start_cover, stop_cover] at h
  omega

/-! ### Covering many windows -/

theorem start_foldl_cover_le (hits : List Window) (a : Window) :
    ∀ h ∈ a :: hits, (hits.foldl cover a).start.toInt ≤ h.start.toInt := by
  induction hits generalizing a with
  | nil => simp
  | cons b hits ih =>
    have hab := ih (a.cover b) (a.cover b) (by simp)
    rw [start_cover] at hab
    intro h hm
    rw [List.foldl_cons]
    rcases List.mem_cons.1 hm with rfl | hm
    · omega
    · rcases List.mem_cons.1 hm with rfl | hm
      · omega
      · exact ih (a.cover b) h (by simp [hm])

theorem le_stop_foldl_cover (hits : List Window) (a : Window) :
    ∀ h ∈ a :: hits, h.stop.toInt ≤ (hits.foldl cover a).stop.toInt := by
  induction hits generalizing a with
  | nil => simp
  | cons b hits ih =>
    have hab := ih (a.cover b) (a.cover b) (by simp)
    rw [stop_cover] at hab
    intro h hm
    rw [List.foldl_cons]
    rcases List.mem_cons.1 hm with rfl | hm
    · omega
    · rcases List.mem_cons.1 hm with rfl | hm
      · omega
      · exact ih (a.cover b) h (by simp [hm])

/-- The cover starts where one of the windows does. -/
theorem start_foldl_cover (hits : List Window) (a : Window) :
    ∃ h ∈ a :: hits, (hits.foldl cover a).start.toInt = h.start.toInt := by
  induction hits generalizing a with
  | nil => exact ⟨a, by simp, rfl⟩
  | cons b hits ih =>
    obtain ⟨h, hm, he⟩ := ih (a.cover b)
    rw [List.foldl_cons]
    rcases List.mem_cons.1 hm with rfl | hm
    · rw [start_cover] at he
      rcases Int.le_total a.start.toInt b.start.toInt with hab | hab
      · exact ⟨a, by simp, by omega⟩
      · exact ⟨b, by simp, by omega⟩
    · exact ⟨h, by simp [hm], he⟩

/-- The cover ends where one of the windows does. -/
theorem stop_foldl_cover (hits : List Window) (a : Window) :
    ∃ h ∈ a :: hits, (hits.foldl cover a).stop.toInt = h.stop.toInt := by
  induction hits generalizing a with
  | nil => exact ⟨a, by simp, rfl⟩
  | cons b hits ih =>
    obtain ⟨h, hm, he⟩ := ih (a.cover b)
    rw [List.foldl_cons]
    rcases List.mem_cons.1 hm with rfl | hm
    · rw [stop_cover] at he
      rcases Int.le_total a.stop.toInt b.stop.toInt with hab | hab
      · exact ⟨b, by simp, by omega⟩
      · exact ⟨a, by simp, by omega⟩
    · exact ⟨h, by simp [hm], he⟩

/-- What touches the cover of a window and of others that touch it, touches one of them. -/
theorem touches_of_foldl_cover (hw : w.Proper) (hits : List Window) {a : Window}
    (ht : ∀ h ∈ hits, a.touches h) (h : (hits.foldl cover a).touches w) :
    ∃ h ∈ a :: hits, h.touches w := by
  induction hits generalizing a with
  | nil => exact ⟨a, by simp, h⟩
  | cons b hits ih =>
    have hrest : ∀ c ∈ hits, (a.cover b).touches c := fun c hc => by
      rw [touches_comm]
      exact touches_cover_left (by rw [touches_comm]; exact ht c (by simp [hc]))
    obtain ⟨c, hc, hcw⟩ := ih hrest h
    rcases List.mem_cons.1 hc with rfl | hc
    · rcases touches_of_cover hw (ht b (by simp)) hcw with h | h
      · exact ⟨a, by simp, h⟩
      · exact ⟨b, by simp, h⟩
    · exact ⟨c, by simp [hc], hcw⟩

/-! ### Order -/

theorem start_le_of_isLE (h : (compare a b).isLE) : a.start.toInt ≤ b.start.toInt :=
  Int64.le_iff_toInt_le.1 (Std.isLE_compare.1 (Ordering.isLE_left_of_isLE_then h))

theorem isLE_of_start_lt (h : a.start.toInt < b.start.toInt) : (compare a b).isLE :=
  Ordering.isLE_then_iff_or.2 (.inl (Std.compare_eq_lt.2 (Int64.lt_iff_toInt_lt.2 h)))

theorem lt_of_start_lt (h : a.start.toInt < b.start.toInt) : compare a b = .lt := by
  have hstart : compare a.start b.start = .lt := Std.compare_eq_lt.2 (Int64.lt_iff_toInt_lt.2 h)
  show (compare a.start b.start).then (compare a.stop b.stop) = .lt
  rw [hstart]
  rfl

theorem isLE_total (a b : Window) : (compare a b).isLE || (compare b a).isLE := by
  rw [Bool.or_eq_true]
  by_cases h : (compare a b).isLE
  · exact .inl h
  · exact .inr (Ordering.isLE_of_eq_lt (Std.OrientedCmp.lt_of_not_isLE h))

theorem pairwise_sort (ws : List Window) : (sort ws).Pairwise fun a b => (compare a b).isLE :=
  List.pairwise_mergeSort (fun _ _ _ => Std.TransCmp.isLE_trans) isLE_total ws

/-! ### Ascending windows -/

/-- Each window comes before the next ones. -/
def Ascending (ws : List Window) : Prop := ws.Pairwise fun a b => compare a b = .lt

theorem Ascending.nodup {ws : List Window} (h : Ascending ws) : ws.Nodup :=
  h.imp fun {a b} hab he => by
    have hself : compare b b = .eq := Std.ReflCmp.compare_self
    rw [he, hself] at hab
    cases hab

theorem ascending_sort {ws : List Window} (h : ws.Nodup) : Ascending (sort ws) := by
  have hnodup : (sort ws).Nodup := (sort_perm ws).nodup_iff.2 h
  refine (hnodup.and (pairwise_sort ws)).imp fun {a b} ⟨hne, hle⟩ => ?_
  cases hab : compare a b with
  | lt => rfl
  | eq => exact absurd (Std.LawfulEqOrd.eq_of_compare hab) hne
  | gt => simp [hab] at hle

/-- Ascending windows are known by their members. -/
theorem Ascending.eq_of_mem_iff {vs ws : List Window} (hv : Ascending vs) (hw : Ascending ws)
    (h : ∀ w, w ∈ vs ↔ w ∈ ws) : vs = ws := by
  have hperm : vs.Perm ws := (List.perm_ext_iff_of_nodup hv.nodup hw.nodup).2 h
  refine hperm.eq_of_pairwise (fun a b _ _ hab hba => ?_) hv hw
  have hgt := Std.OrientedCmp.gt_of_lt hab
  rw [hba] at hgt
  cases hgt

/-! ### Windows apart -/

/-- Each window ends before the next one starts. -/
def Apart (ws : List Window) : Prop := ws.Pairwise fun a b => a.stop < b.start

/-- No window touches another. -/
def Scattered (ws : List Window) : Prop := ws.Pairwise fun a b => ¬ a.touches b

theorem not_touches_of_lt (h : a.stop < b.start) : ¬ a.touches b := by
  rw [Int64.lt_iff_toInt_lt] at h
  rw [touches_iff]
  omega

theorem Apart.scattered {ws : List Window} (h : Apart ws) : Scattered ws :=
  h.imp not_touches_of_lt

instance : Std.Symm fun a b : Window => ¬ a.touches b where
  symm a b h := by rwa [touches_comm]

theorem scattered_perm {ws vs : List Window} (h : ws.Perm vs) : Scattered ws ↔ Scattered vs :=
  h.pairwise_iff fun {a b} hab => by rwa [touches_comm]

/-- Scattered windows lie apart when they ascend. -/
theorem Scattered.apart {ws : List Window} (h : Scattered ws) (ha : Ascending ws)
    (hp : ∀ w ∈ ws, w.Proper) : Apart ws := by
  refine (h.and ha).imp_of_mem fun {a b} hma hmb hab => ?_
  have hpa := proper_iff.1 (hp a hma)
  have hpb := proper_iff.1 (hp b hmb)
  obtain ⟨hn, hlt⟩ := hab
  have hstart := start_le_of_isLE (Ordering.isLE_of_eq_lt hlt)
  rw [touches_iff] at hn
  rw [Int64.lt_iff_toInt_lt]
  omega

theorem Apart.sort_eq {ws : List Window} (hp : ∀ w ∈ ws, w.Proper) (h : Apart ws) :
    sort ws = ws := by
  refine List.mergeSort_of_pairwise (h.imp_of_mem fun {a b} ha _ hab => ?_)
  have hpa := proper_iff.1 (hp a ha)
  rw [Int64.lt_iff_toInt_lt] at hab
  exact isLE_of_start_lt (by omega)

theorem Apart.ascending {ws : List Window} (hp : ∀ w ∈ ws, w.Proper) (h : Apart ws) :
    Ascending ws := by
  refine h.imp_of_mem fun {a b} ha _ hab => ?_
  have hpa := proper_iff.1 (hp a ha)
  rw [Int64.lt_iff_toInt_lt] at hab
  exact lt_of_start_lt (by omega)

theorem Apart.nodup {ws : List Window} (hp : ∀ w ∈ ws, w.Proper) (h : Apart ws) : ws.Nodup :=
  (h.ascending hp).nodup

/-- Every window takes two instants at least, its first and its end. -/
theorem Apart.two_mul_length {ws : List Window} (hp : ∀ w ∈ ws, w.Proper) (h : Apart ws)
    {lower : Int} (hlower : lower < 2 ^ 63) (hall : ∀ w ∈ ws, lower < w.start.toInt) :
    2 * ws.length + lower < 2 ^ 63 := by
  induction ws generalizing lower with
  | nil => simpa using hlower
  | cons w ws ih =>
    obtain ⟨hw, hws⟩ := List.pairwise_cons.1 h
    have hrest := ih (fun v hv => hp v (by simp [hv])) hws w.stop.toInt_lt
      fun v hv => Int64.lt_iff_toInt_lt.1 (hw v hv)
    have hwp := proper_iff.1 (hp w (by simp))
    have hwl := hall w (by simp)
    rw [List.length_cons]
    omega

theorem Apart.length_lt {ws : List Window} (hp : ∀ w ∈ ws, w.Proper) (h : Apart ws) :
    ws.length < 2 ^ 64 := by
  have hall : ∀ w ∈ ws, -2 ^ 63 - 1 < w.start.toInt := fun w _ => by
    have := w.start.le_toInt
    omega
  have := h.two_mul_length hp (by decide) hall
  omega

theorem mem_sort {ws : List Window} : w ∈ sort ws ↔ w ∈ ws := (sort_perm ws).mem_iff

end Window

end Tidemark
