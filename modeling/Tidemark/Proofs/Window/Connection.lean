import Mathlib.Logic.Relation
import Mathlib.Order.Bounds.Basic
import Tidemark.Proofs.Window.Absorption

/-! What a candidate absorbs, told without the loop that absorbs. A window is connected to the
candidate when a chain of live windows leads to it, each of which touches the next. In whatever way
and order the live windows lie, the candidate absorbs those that are connected to it, and grows to
the least window around them all. -/

namespace Tidemark

namespace Window

variable {c w reach reach' : Window} {live live' taken taken' hits rest : List Window}

/-- A chain of live windows leads from `c` to `w`, each touching the next. -/
def Connected (live : List Window) (c w : Window) : Prop :=
  Relation.ReflTransGen (fun a b => b ∈ live ∧ a.touches b) c w

theorem Connected.congr (h : Connected live c w) (hlive : ∀ v ∈ live, v ∈ live') :
    Connected live' c w := by
  induction h with
  | refl => exact .refl
  | tail _ hstep ih => exact .tail ih ⟨hlive _ hstep.1, hstep.2⟩

/-! ### The loop -/

/-- The windows `taken` are connected to `c`, and `reach` is the least window around `c` and them.
It touches nothing that none of them touches. -/
structure Gathers (live : List Window) (c : Window) (taken : List Window) (reach : Window) :
    Prop where
  connected : ∀ w ∈ taken, Connected live c w
  spans : ∀ w ∈ c :: taken, reach.Spans w
  start : ∃ w ∈ c :: taken, w.start.toInt = reach.start.toInt
  stop : ∃ w ∈ c :: taken, w.stop.toInt = reach.stop.toInt
  touches : ∀ w, w.Proper → reach.touches w → ∃ v ∈ c :: taken, v.touches w

theorem gathers_nil (live : List Window) (c : Window) : Gathers live c [] c where
  connected := by simp
  spans := by simp [spans_refl]
  start := ⟨c, by simp, rfl⟩
  stop := ⟨c, by simp, rfl⟩
  touches _ _ h := ⟨c, by simp, h⟩

theorem Gathers.congr (h : Gathers live c taken reach) (hmem : ∀ w, w ∈ taken ↔ w ∈ taken') :
    Gathers live c taken' reach := by
  have hcons : ∀ w, w ∈ c :: taken ↔ w ∈ c :: taken' := fun w => by
    rw [List.mem_cons, List.mem_cons, hmem]
  obtain ⟨hconnected, hspans, hstart, hstop, htouches⟩ := h
  simp only [hmem] at hconnected
  simp only [hcons] at hspans hstart hstop htouches
  exact ⟨hconnected, hspans, hstart, hstop, htouches⟩

/-- What touches the window reached so far is taken in, and the window grows around it. -/
theorem Gathers.take (h : Gathers live c taken reach)
    (hhits : ∀ w ∈ hits, w ∈ live ∧ w.Proper ∧ reach.touches w) :
    Gathers live c (taken ++ hits) (hits.foldl cover reach) := by
  have hall : ∀ w, w ∈ c :: (taken ++ hits) ↔ w ∈ c :: taken ∨ w ∈ hits := fun w => by
    simp only [List.mem_cons, List.mem_append, or_assoc]
  have hfrom : ∀ w ∈ c :: taken, Connected live c w := by
    intro w hw
    rcases List.mem_cons.1 hw with rfl | hw
    · exact .refl
    · exact h.connected w hw
  have hspans := spans_foldl_cover hits reach
  refine ⟨fun w hw => ?_, fun w hw => ?_, ?_, ?_, fun w hw ht => ?_⟩
  · rcases List.mem_append.1 hw with hw | hw
    · exact h.connected w hw
    · -- the window reached so far touches it, and so does a window that was taken in before
      obtain ⟨hlive, hproper, ht⟩ := hhits w hw
      obtain ⟨v, hv, hvw⟩ := h.touches w hproper ht
      exact .tail (hfrom v hv) ⟨hlive, hvw⟩
  · rcases (hall w).1 hw with hw | hw
    · exact hspans.trans (h.spans w hw)
    · exact ⟨start_foldl_cover_le hits reach w (by simp [hw]),
        le_stop_foldl_cover hits reach w (by simp [hw])⟩
  · obtain ⟨v, hv, he⟩ := start_foldl_cover hits reach
    rcases List.mem_cons.1 hv with rfl | hv
    · obtain ⟨w, hw, hstart⟩ := h.start
      exact ⟨w, (hall w).2 (.inl hw), hstart.trans he.symm⟩
    · exact ⟨v, (hall v).2 (.inr hv), he.symm⟩
  · obtain ⟨v, hv, he⟩ := stop_foldl_cover hits reach
    rcases List.mem_cons.1 hv with rfl | hv
    · obtain ⟨w, hw, hstop⟩ := h.stop
      exact ⟨w, (hall w).2 (.inl hw), hstop.trans he.symm⟩
    · exact ⟨v, (hall v).2 (.inr hv), he.symm⟩
  · obtain ⟨v, hv, hvw⟩ := touches_of_foldl_cover hw hits (fun u hu => (hhits u hu).2.2) ht
    rcases List.mem_cons.1 hv with rfl | hv
    · obtain ⟨u, hu, huw⟩ := h.touches w hw hvw
      exact ⟨u, (hall u).2 (.inl hu), huw⟩
    · exact ⟨v, (hall v).2 (.inr hv), hvw⟩

/-- So it is pass after pass, until nothing is left that touches. -/
theorem Gathers.absorbFrom (h : Gathers live c taken reach)
    (hrest : ∀ w ∈ rest, w ∈ live ∧ w.Proper) :
    Gathers live c (absorbFrom reach taken rest).absorbed (absorbFrom reach taken rest).merged := by
  induction reach, taken, rest using absorbFrom.induct with
  | case1 reach taken rest hnone =>
    rw [absorbFrom_nil _ _ _ hnone]
    exact h
  | case2 reach taken rest hsome ih =>
    rw [Window.absorbFrom, dif_neg hsome]
    refine ih (h.take fun w hw => ?_) fun w hw => hrest w (List.mem_filter.1 hw).1
    obtain ⟨hw, ht⟩ := List.mem_filter.1 hw
    exact ⟨(hrest w hw).1, (hrest w hw).2, ht⟩

/-! ### Absorbing -/

section Absorb

variable (hp : ∀ w ∈ live, w.Proper)

include hp

theorem gathers_absorb (c : Window) :
    Gathers live c (absorb live c).absorbed (absorb live c).merged :=
  ((gathers_nil live c).absorbFrom fun w hw => ⟨hw, hp w hw⟩).congr fun _ =>
    (sort_perm _).mem_iff.symm

/-- What is connected to a candidate lies in the window that it grows to. -/
theorem Connected.spans_merged (h : Connected live c w) : (absorb live c).merged.Spans w := by
  induction h with
  | refl => exact Window.spans_merged live c
  | tail _ hstep ih =>
    have habsorbed := mem_absorbed_iff.2 ⟨hstep.1, ih.touches hstep.2⟩
    exact (gathers_absorb hp c).spans _ (List.mem_cons_of_mem c habsorbed)

theorem mem_absorbed_iff_connected :
    w ∈ (absorb live c).absorbed ↔ w ∈ live ∧ Connected live c w := by
  constructor
  · intro hw
    exact ⟨(mem_absorbed_iff.1 hw).1, (gathers_absorb hp c).connected w hw⟩
  · rintro ⟨hw, hconnected⟩
    exact mem_absorbed_iff.2 ⟨hw, (hconnected.spans_merged hp).touches (touches_self (hp w hw))⟩

omit hp in
/-- All copies of a window are absorbed, or none. -/
theorem count_absorbed (hw : w ∈ (absorb live c).absorbed) :
    (absorb live c).absorbed.count w = live.count w := by
  rw [(absorbed_perm live c).count_eq, within, List.count_filter (mem_absorbed_iff.1 hw).2]

omit hp in
/-- The window around some others is known by them. -/
theorem Gathers.unique (h : Gathers live c taken reach) (h' : Gathers live' c taken reach') :
    reach = reach' := by
  obtain ⟨v, hv, hstart⟩ := h.start
  obtain ⟨v', hv', hstart'⟩ := h'.start
  obtain ⟨w, hw, hstop⟩ := h.stop
  obtain ⟨w', hw', hstop'⟩ := h'.stop
  have hle := (h'.spans v hv).1
  have hle' := (h.spans v' hv').1
  have hge := (h'.spans w hw).2
  have hge' := (h.spans w' hw').2
  exact eq_of_toInt (by omega) (by omega)

/-- The order of the live windows makes no difference. -/
theorem absorb_of_perm (hperm : live'.Perm live) (c : Window) : absorb live' c = absorb live c := by
  have hp' : ∀ w ∈ live', w.Proper := fun w hw => hp w (hperm.mem_iff.1 hw)
  have hmem : ∀ w, w ∈ (absorb live' c).absorbed ↔ w ∈ (absorb live c).absorbed := by
    intro w
    rw [mem_absorbed_iff_connected hp, mem_absorbed_iff_connected hp', hperm.mem_iff]
    exact and_congr_right fun _ => ⟨fun h => h.congr fun v hv => hperm.mem_iff.1 hv,
      fun h => h.congr fun v hv => hperm.mem_iff.2 hv⟩
  have hmerged : (absorb live' c).merged = (absorb live c).merged :=
    ((gathers_absorb hp' c).congr hmem).unique (gathers_absorb hp c)
  have habsorbed : (absorb live' c).absorbed.Perm (absorb live c).absorbed := by
    have hwithin := hperm.filter (absorb live c).merged.touches
    have hthere := absorbed_perm live' c
    rw [hmerged] at hthere
    exact hthere.trans (hwithin.trans (absorbed_perm live c).symm)
  have hsorted : (absorb live' c).absorbed = (absorb live c).absorbed :=
    habsorbed.eq_of_pairwise (fun a b _ _ hab hba =>
      Std.LawfulEqOrd.eq_of_compare (Std.OrientedCmp.isLE_antisymm hab hba))
      (pairwise_sort _) (pairwise_sort _)
  show (⟨(absorb live' c).merged, (absorb live' c).absorbed⟩ : Merger) = absorb live c
  rw [hmerged, hsorted]

end Absorb

/-- Among the windows that it leaves and the one that it grows to, a candidate changes nothing. -/
theorem absorb_settled (hc : c.Proper) :
    absorb ((absorb live c).merged :: live.filter (· ∉ (absorb live c).absorbed)) c =
      ⟨(absorb live c).merged, [(absorb live c).merged]⟩ := by
  generalize hrest : live.filter (· ∉ (absorb live c).absorbed) = rest
  generalize hm : (absorb live c).merged = m
  have hspans : m.Spans c := hm ▸ spans_merged live c
  have hfree : ∀ w ∈ rest, ¬ m.touches w := by
    rintro w hw ht
    rw [← hrest, List.mem_filter, decide_eq_true_eq] at hw
    exact hw.2 (mem_absorbed_iff.2 ⟨hw.1, hm ▸ ht⟩)
  have htouch : c.touches m := hm ▸ touches_merged hc
  have hwithin : within c (m :: rest) = [m] := by
    rw [within, List.filter_cons_of_pos htouch, List.cons_inj_right, List.filter_eq_nil_iff]
    exact fun w hw ht => hfree w hw (hspans.touches ht)
  have hbeyond : within m (beyond c (m :: rest)) = [] := by
    rw [within, List.filter_eq_nil_iff]
    intro w hw
    obtain ⟨hw, hfar⟩ := List.mem_filter.1 hw
    rcases List.mem_cons.1 hw with rfl | hw
    · simp [htouch] at hfar
    · exact hfree w hw
  have hcover : c.cover m = m := by
    obtain ⟨hstart, hstop⟩ := hspans
    refine eq_of_toInt ?_ ?_
    · rw [start_cover]
      omega
    · rw [stop_cover]
      omega
  have hloop : absorbFrom c [] (m :: rest) = ⟨m, [m]⟩ := by
    rw [absorbFrom, dif_neg (by simp [hwithin]), hwithin, List.foldl_cons, List.foldl_nil, hcover,
      absorbFrom_nil _ _ _ hbeyond, List.nil_append]
  rw [absorb, hloop]
  simp only [sort, List.mergeSort_singleton]

/-- A candidate absorbs the live windows that are connected to it, every copy of them and no others,
in ascending order, and grows to the least window around them, which touches nothing else that is
live. The order of the live windows makes no difference, and among what is live afterwards the same
candidate changes nothing. -/
theorem absorb_connected (hp : ∀ w ∈ live, w.Proper) (hc : c.Proper) :
    let m := absorb live c
    (∀ w, w ∈ m.absorbed ↔ w ∈ live ∧ Connected live c w) ∧
    (∀ w ∈ m.absorbed, m.absorbed.count w = live.count w) ∧
    m.absorbed.Pairwise (fun v w => (compare v w).isLE) ∧
    IsLeast {t | ∃ w ∈ c :: m.absorbed, w.start = t} m.merged.start ∧
    IsGreatest {t | ∃ w ∈ c :: m.absorbed, w.stop = t} m.merged.stop ∧
    (∀ w ∈ live, w ∉ m.absorbed → ¬ m.merged.touches w) ∧
    (∀ live', live'.Perm live → absorb live' c = m) ∧
    ∀ live', live'.Perm (m.merged :: live.filter (· ∉ m.absorbed)) →
      absorb live' c = ⟨m.merged, [m.merged]⟩ ∧ (absorb live' c).isIdle := by
  intro m
  have hgathers := gathers_absorb hp c
  refine ⟨fun w => mem_absorbed_iff_connected hp, fun w => count_absorbed, pairwise_sort _,
    ⟨?_, ?_⟩, ⟨?_, ?_⟩, fun w hw hout ht => hout (mem_absorbed_iff.2 ⟨hw, ht⟩),
    fun live' hperm => absorb_of_perm hp hperm c, fun live' hperm => ?_⟩
  · obtain ⟨w, hw, hstart⟩ := hgathers.start
    exact ⟨w, hw, Int64.toInt_inj.1 hstart⟩
  · rintro _ ⟨w, hw, rfl⟩
    exact Int64.le_iff_toInt_le.2 (hgathers.spans w hw).1
  · obtain ⟨w, hw, hstop⟩ := hgathers.stop
    exact ⟨w, hw, Int64.toInt_inj.1 hstop⟩
  · rintro _ ⟨w, hw, rfl⟩
    exact Int64.le_iff_toInt_le.2 (hgathers.spans w hw).2
  · have hproper : ∀ w ∈ m.merged :: live.filter (· ∉ m.absorbed), w.Proper := by
      intro w hw
      rcases List.mem_cons.1 hw with rfl | hw
      · exact proper_merged hc
      · exact hp w (List.mem_filter.1 hw).1
    have hagain := (absorb_of_perm hproper hperm c).trans (absorb_settled hc)
    rw [hagain]
    exact ⟨rfl, decide_eq_true rfl⟩

/-- A window that is taken in brings the candidate to the next one, and one lies there twice. -/
theorem absorb_connected_chain :
    let live : List Window := [⟨30, 35⟩, ⟨10, 12⟩, ⟨0, 5⟩, ⟨10, 12⟩, ⟨50, 60⟩, ⟨20, 30⟩]
    let m := absorb live ⟨12, 21⟩
    m = ⟨⟨10, 35⟩, [⟨10, 12⟩, ⟨10, 12⟩, ⟨20, 30⟩, ⟨30, 35⟩]⟩ ∧
      (∀ w, w ∈ m.absorbed ↔ w ∈ live ∧ Connected live ⟨12, 21⟩ w) ∧
      IsLeast {t | ∃ w ∈ ⟨12, 21⟩ :: m.absorbed, w.start = t} m.merged.start ∧
      absorb [⟨50, 60⟩, ⟨10, 35⟩, ⟨0, 5⟩] ⟨12, 21⟩ = ⟨⟨10, 35⟩, [⟨10, 35⟩]⟩ := by
  intro live m
  have hloop : absorbFrom ⟨12, 21⟩ [] live =
      ⟨⟨10, 35⟩, [⟨10, 12⟩, ⟨10, 12⟩, ⟨20, 30⟩, ⟨30, 35⟩]⟩ := by
    rw [absorbFrom, dif_neg (by decide), absorbFrom, dif_neg (by decide),
      absorbFrom_nil _ _ _ (by decide)]
    decide
  have hm : m = ⟨⟨10, 35⟩, [⟨10, 12⟩, ⟨10, 12⟩, ⟨20, 30⟩, ⟨30, 35⟩]⟩ := by
    show absorb live _ = _
    rw [absorb, hloop, sort, List.mergeSort_of_pairwise (by decide)]
  have hp : ∀ w ∈ live, w.Proper := by unfold Proper; decide
  obtain ⟨hmem, _, _, hleast, _, _, _, hagain⟩ :=
    absorb_connected (c := ⟨12, 21⟩) hp (by unfold Proper; decide)
  have hmerged : (absorb live ⟨12, 21⟩).merged = ⟨10, 35⟩ := congrArg Merger.merged hm
  rw [hmerged] at hagain
  refine ⟨hm, hmem, hleast, (hagain _ ?_).1⟩
  show List.Perm _ (_ :: live.filter (· ∉ m.absorbed))
  rw [hm]
  decide

end Window

end Tidemark
