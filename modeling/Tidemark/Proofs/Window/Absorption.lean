import Tidemark.Proofs.Window.Apart

/-! Absorbing. A candidate only ever grows, so that what touches it on the way touches the window
that it grows to; in the end it has absorbed just the live windows that touch that one. Scattered
windows stay scattered when some of them give way to it. Among windows apart a candidate absorbs
just those that it touches itself, and they lie apart again afterwards. -/

namespace Tidemark

namespace Window

variable {a b c w : Window} {live : List Window}

/-! ### Growing -/

/-- `b` starts no later than `a` and ends no earlier. -/
def Spans (b a : Window) : Prop := b.start.toInt ≤ a.start.toInt ∧ a.stop.toInt ≤ b.stop.toInt

theorem spans_refl (a : Window) : a.Spans a := ⟨Int.le_refl _, Int.le_refl _⟩

theorem Spans.trans (hcb : c.Spans b) (hba : b.Spans a) : c.Spans a :=
  ⟨Int.le_trans hcb.1 hba.1, Int.le_trans hba.2 hcb.2⟩

theorem Spans.touches (h : b.Spans a) (hw : a.touches w) : b.touches w := by
  obtain ⟨hstart, hstop⟩ := h
  rw [touches_iff] at hw ⊢
  omega

theorem Spans.proper (h : b.Spans a) (ha : a.Proper) : b.Proper := by
  obtain ⟨hstart, hstop⟩ := h
  rw [proper_iff] at ha ⊢
  omega

theorem spans_foldl_cover (hits : List Window) (a : Window) : (hits.foldl cover a).Spans a :=
  ⟨start_foldl_cover_le hits a a (by simp), le_stop_foldl_cover hits a a (by simp)⟩

/-- What touches `b` is what touches `a`, and what touches `b` beyond that. -/
theorem Spans.within_perm (h : b.Spans a) (ws : List Window) :
    (within a ws ++ within b (beyond a ws)).Perm (within b ws) := by
  have hsplit : ((within a ws ++ beyond a ws).filter b.touches).Perm (within b ws) :=
    (List.filter_append_perm a.touches ws).filter b.touches
  have hkept : (within a ws).filter b.touches = within a ws :=
    List.filter_eq_self.2 fun w hw => h.touches (List.mem_filter.1 hw).2
  rwa [List.filter_append, hkept] at hsplit

theorem absorbFrom_nil (reach : Window) (taken rest : List Window) (h : within reach rest = []) :
    absorbFrom reach taken rest = ⟨reach, taken⟩ := by
  rw [absorbFrom, dif_pos h]

theorem spans_absorbFrom (reach : Window) (taken rest : List Window) :
    (absorbFrom reach taken rest).merged.Spans reach := by
  induction reach, taken, rest using absorbFrom.induct with
  | case1 reach taken rest hnone =>
    rw [absorbFrom_nil _ _ _ hnone]
    exact spans_refl reach
  | case2 reach taken rest hsome ih =>
    rw [absorbFrom, dif_neg hsome]
    exact ih.trans (spans_foldl_cover _ _)

/-- What has been taken in stays, and of the rest those windows join it that touch the window
grown to in the end. -/
theorem absorbFrom_perm (reach : Window) (taken rest : List Window) :
    (absorbFrom reach taken rest).absorbed.Perm
      (taken ++ within (absorbFrom reach taken rest).merged rest) := by
  induction reach, taken, rest using absorbFrom.induct with
  | case1 reach taken rest hnone =>
    rw [absorbFrom_nil _ _ _ hnone, hnone, List.append_nil]
  | case2 reach taken rest hsome ih =>
    have hspans : (absorbFrom reach taken rest).merged.Spans reach :=
      spans_absorbFrom reach taken rest
    rw [absorbFrom, dif_neg hsome] at hspans ⊢
    refine ih.trans ?_
    rw [List.append_assoc]
    exact (hspans.within_perm rest).append_left taken

theorem spans_merged (live : List Window) (c : Window) : (absorb live c).merged.Spans c :=
  spans_absorbFrom c [] live

theorem proper_merged (hc : c.Proper) : (absorb live c).merged.Proper :=
  (spans_merged live c).proper hc

theorem touches_merged (hc : c.Proper) : c.touches (absorb live c).merged := by
  rw [touches_comm]
  exact (spans_merged live c).touches (touches_self hc)

theorem absorbed_perm (live : List Window) (c : Window) :
    (absorb live c).absorbed.Perm (within (absorb live c).merged live) :=
  (sort_perm _).trans (absorbFrom_perm c [] live)

/-- The window grown to touches just those live windows that are absorbed. -/
theorem mem_absorbed_iff :
    w ∈ (absorb live c).absorbed ↔ w ∈ live ∧ (absorb live c).merged.touches w := by
  rw [(absorbed_perm live c).mem_iff, within, List.mem_filter]

/-! ### Ascending windows -/

theorem ascending_absorbed (h : Ascending live) (c : Window) :
    Ascending (absorb live c).absorbed :=
  ascending_sort (((sort_perm _).symm.trans (absorbed_perm live c)).nodup_iff.2
    (h.nodup.sublist List.filter_sublist))

theorem absorbed_eq_within (h : Ascending live) (c : Window) :
    (absorb live c).absorbed = within (absorb live c).merged live :=
  (ascending_absorbed h c).eq_of_mem_iff (h.sublist List.filter_sublist)
    fun _ => (absorbed_perm live c).mem_iff

/-! ### Giving way to the window grown to -/

/-- The windows that are live after `c` is folded in. -/
def settled (live : List Window) (c : Window) : List Window :=
  sort (live.filter (· ∉ (absorb live c).absorbed) ++ [(absorb live c).merged])

theorem mem_settled : w ∈ settled live c ↔
    w = (absorb live c).merged ∨ w ∈ live ∧ w ∉ (absorb live c).absorbed := by
  simp only [settled, mem_sort, List.mem_append, List.mem_filter, List.mem_singleton,
    decide_not, Bool.not_eq_true', decide_eq_false_iff_not]
  exact or_comm

theorem proper_settled (hp : ∀ w ∈ live, w.Proper) (hc : c.Proper) :
    ∀ w ∈ settled live c, w.Proper := by
  intro w hw
  rcases mem_settled.1 hw with rfl | ⟨hw, _⟩
  · exact proper_merged hc
  · exact hp w hw

theorem merged_mem_absorbed (hc : c.Proper) :
    (absorb live c).merged ∈ (absorb live c).absorbed ↔ (absorb live c).merged ∈ live := by
  rw [mem_absorbed_iff, and_iff_left_iff_imp]
  exact fun _ => touches_self (proper_merged hc)

theorem ascending_settled (h : Ascending live) (hc : c.Proper) : Ascending (settled live c) := by
  refine ascending_sort (List.nodup_append.2 ⟨h.nodup.sublist List.filter_sublist, by simp, ?_⟩)
  intro a ha b hb he
  obtain ⟨hal, han⟩ := List.mem_filter.1 ha
  obtain rfl := List.mem_singleton.1 hb
  rw [he] at hal han
  simp [(merged_mem_absorbed hc).2 hal] at han

theorem scattered_settled (h : Scattered live) (c : Window) : Scattered (settled live c) := by
  refine (scattered_perm (sort_perm _)).2 (List.pairwise_append.2
    ⟨h.sublist List.filter_sublist, List.pairwise_singleton _ _, fun a ha b hb => ?_⟩)
  obtain ⟨hal, han⟩ := List.mem_filter.1 ha
  obtain rfl := List.mem_singleton.1 hb
  rw [touches_comm]
  intro ht
  simp [mem_absorbed_iff.2 ⟨hal, ht⟩] at han

/-- A candidate inside one live window changes nothing. -/
theorem settled_of_absorbed_eq (h : Ascending live) (hc : c.Proper)
    (ha : (absorb live c).absorbed = [(absorb live c).merged]) : settled live c = live := by
  have hm : (absorb live c).merged ∈ live := (merged_mem_absorbed hc).1 (by simp [ha])
  refine (ascending_settled h hc).eq_of_mem_iff h fun w => ?_
  rw [mem_settled, ha, List.mem_singleton]
  by_cases hw : w = (absorb live c).merged
  · simp [hw, hm]
  · simp [hw]

/-! ### Windows apart -/

section Apart

variable (hp : ∀ w ∈ live, w.Proper) (h : Apart live)

include hp h

/-- Among windows apart, a candidate absorbs those that it touches. -/
theorem absorb_of_apart (c : Window) :
    absorb live c = ⟨(within c live).foldl cover c, within c live⟩ := by
  have hnone : within ((within c live).foldl cover c) (beyond c live) = [] := by
    rw [within, List.filter_eq_nil_iff]
    intro w hw hreach
    obtain ⟨hwl, hwc⟩ := List.mem_filter.1 hw
    have ht : ∀ v ∈ within c live, c.touches v := fun v hv => (List.mem_filter.1 hv).2
    obtain ⟨v, hv, hvw⟩ := touches_of_foldl_cover (hp w hwl) _ ht hreach
    rcases List.mem_cons.1 hv with rfl | hv
    · simp [hvw] at hwc
    · obtain ⟨hvl, hvc⟩ := List.mem_filter.1 hv
      have hvw' : v ≠ w := fun he => by simp [← he, hvc] at hwc
      exact h.scattered.forall hvl hwl hvw' hvw
  have hsort : sort (within c live) = within c live :=
    Apart.sort_eq (fun w hw => hp w (List.mem_filter.1 hw).1) (h.sublist List.filter_sublist)
  unfold absorb
  rw [absorbFrom]
  split
  · next hw => simp [hw, sort]
  · simp only [absorbFrom_nil _ _ _ hnone, List.nil_append, hsort]

theorem mem_absorbed : w ∈ (absorb live c).absorbed ↔ w ∈ live ∧ c.touches w := by
  rw [absorb_of_apart hp h, within, List.mem_filter]

theorem apart_settled (hc : c.Proper) : Apart (settled live c) :=
  (scattered_settled h.scattered c).apart (ascending_settled (h.ascending hp) hc)
    (proper_settled hp hc)

end Apart

end Window

end Tidemark
