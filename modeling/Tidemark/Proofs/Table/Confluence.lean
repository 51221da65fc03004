import Mathlib.Data.List.Nodup
import Mathlib.Data.List.Perm.Basic
import Tidemark.Proofs.Table.Listing

/-! Payloads in any order. When the aggregate is a commutative monoid, two payloads may change
places: either their windows have nothing to do with each other, or both end in one window, around
the same windows and with the same product. So the contents after many payloads do not depend on
their order. -/

namespace Tidemark

namespace Window

variable {a b m n w : Window} {live : List Window} {S T : Window → Prop}

/-- `m` is the least window around those of `S`. -/
structure Hull (S : Window → Prop) (m : Window) : Prop where
  around : ∀ w, S w → m.start.toInt ≤ w.start.toInt ∧ w.stop.toInt ≤ m.stop.toInt
  start : ∃ w, S w ∧ w.start.toInt = m.start.toInt
  stop : ∃ w, S w ∧ w.stop.toInt = m.stop.toInt

theorem Hull.congr (h : Hull S m) (hST : ∀ w, S w ↔ T w) : Hull T m := by
  obtain rfl : S = T := funext fun w => propext (hST w)
  exact h

theorem Hull.unique (hm : Hull S m) (hn : Hull S n) : m = n := by
  obtain ⟨v, hv, hvm⟩ := hm.start
  obtain ⟨w, hw, hwn⟩ := hn.start
  obtain ⟨v', hv', hvm'⟩ := hm.stop
  obtain ⟨w', hw', hwn'⟩ := hn.stop
  have hstart := (hn.around v hv).1
  have hstart' := (hm.around w hw).1
  have hstop := (hn.around v' hv').2
  have hstop' := (hm.around w' hw').2
  exact eq_of_toInt (by omega) (by omega)

/-- A window around a hull and more is around all of it. -/
theorem Hull.join (hm : Hull S m) (hn : Hull (fun w => w = m ∨ T w) n) :
    Hull (fun w => S w ∨ T w) n := by
  obtain ⟨hstart, hstop⟩ := hn.around m (.inl rfl)
  refine ⟨fun w hw => ?_, ?_, ?_⟩
  · rcases hw with hw | hw
    · have := hm.around w hw
      omega
    · exact hn.around w (.inr hw)
  · obtain ⟨w, rfl | hw, he⟩ := hn.start
    · obtain ⟨v, hv, hvm⟩ := hm.start
      exact ⟨v, .inl hv, hvm.trans he⟩
    · exact ⟨w, .inr hw, he⟩
  · obtain ⟨w, rfl | hw, he⟩ := hn.stop
    · obtain ⟨v, hv, hvm⟩ := hm.stop
      exact ⟨v, .inl hv, hvm.trans he⟩
    · exact ⟨w, .inr hw, he⟩

section Merged

variable (hp : ∀ w ∈ live, w.Proper) (h : Apart live)

include hp h

theorem hull_merged (a : Window) :
    Hull (fun w => w = a ∨ w ∈ live ∧ a.touches w) (absorb live a).merged := by
  rw [absorb_of_apart hp h]
  have hmem : ∀ w, w ∈ a :: within a live ↔ w = a ∨ w ∈ live ∧ a.touches w := fun w => by
    rw [List.mem_cons, within, List.mem_filter]
  refine Hull.congr (S := (· ∈ a :: within a live)) ⟨fun w hw => ?_, ?_, ?_⟩ hmem
  · exact ⟨start_foldl_cover_le _ a w hw, le_stop_foldl_cover _ a w hw⟩
  · obtain ⟨w, hw, he⟩ := start_foldl_cover (within a live) a
    exact ⟨w, hw, he.symm⟩
  · obtain ⟨w, hw, he⟩ := stop_foldl_cover (within a live) a
    exact ⟨w, hw, he.symm⟩

/-- What a candidate grew to touches just what it, or a window that it took in, touches. -/
theorem touches_merged_iff (hb : b.Proper) : (absorb live a).merged.touches b ↔
    a.touches b ∨ ∃ w ∈ live, a.touches w ∧ w.touches b := by
  have hull := hull_merged hp h a
  constructor
  · intro ht
    rw [absorb_of_apart hp h] at ht
    obtain ⟨w, hw, hwb⟩ := touches_of_foldl_cover hb _ (fun v hv => (List.mem_filter.1 hv).2) ht
    rcases List.mem_cons.1 hw with rfl | hw
    · exact .inl hwb
    · obtain ⟨hwl, haw⟩ := List.mem_filter.1 hw
      exact .inr ⟨w, hwl, haw, hwb⟩
  · intro ht
    obtain ⟨w, hw, hwb⟩ : ∃ w, (w = a ∨ w ∈ live ∧ a.touches w) ∧ w.touches b := by
      rcases ht with hab | ⟨w, hwl, haw, hwb⟩
      · exact ⟨a, .inl rfl, hab⟩
      · exact ⟨w, .inr ⟨hwl, haw⟩, hwb⟩
    have haround := hull.around w hw
    rw [touches_iff] at hwb ⊢
    omega

end Merged

end Window

namespace Cells

variable {κ ν α ω : Type} [Encoding κ] [Encoding α] [LawfulEncoding α] {p : Policy} {cs cs' : Cells}

/-! ### Contents by their entries -/

omit [LawfulEncoding α] in
theorem Sound.live_eq (h : Sound κ α p cs) (h' : Sound κ α p cs') (hm : p.merges) {key : Bytes}
    (hsame : ∀ w, (cs.entryAt α ⟨key, w⟩).isSome ↔ (cs'.entryAt α ⟨key, w⟩).isSome) :
    cs.live key = cs'.live key :=
  (h.ascending_live hm key).eq_of_mem_iff (h'.ascending_live hm key) fun w => by
    rw [h.mem_live hm, h'.mem_live hm, hsame]

omit [LawfulEncoding α] in
/-- A session list is stored for each key with live sessions, and for no other key. -/
theorem Sound.getElem?_sessionsAt (h : Sound κ α p cs) (hm : p.merges) (key : Bytes) :
    cs[sessionsAt key]? = if cs.live key = [] then none else some (encode (cs.live key)) := by
  have hread := h.sessions hm key
  rw [Cells.sessions] at hread
  cases hbs : cs[sessionsAt key]? with
  | none =>
    rw [hbs] at hread
    rw [if_pos (Except.ok.inj hread).symm]
  | some bs =>
    rcases h.tidy _ bs hbs with ⟨s, _, hs, _⟩ | ⟨_, key', ws, _, rfl, hws, hlen⟩
    · exact absurd hs.symm (s.cell_ne_sessionsAt key)
    · have hfaithful : Encoding.Faithful ws := Encoding.faithful_list hlen fun w _ => faithful w
      rw [hbs] at hread
      simp only [StateStore.read, Encoding.decodeAs_encode hfaithful] at hread
      rw [← Except.ok.inj hread, if_neg hws]

theorem Sound.getElem?_cell (h : Sound κ α p cs) (s : Slot) :
    cs[s.cell]? = (cs.entryAt α s).map encode := by
  unfold entryAt
  cases hbs : cs[s.cell]? with
  | none => rfl
  | some bs =>
    rcases h.tidy _ bs hbs with ⟨r, e, _, rfl⟩ | ⟨_, key, _, hs, _⟩
    · rw [Option.bind_some, (faithful e).decode_encode]
      rfl
    · exact absurd hs (s.cell_ne_sessionsAt key)

omit [LawfulEncoding α] in
/-- Nothing else is stored. -/
theorem Sound.getElem?_eq_none (h : Sound κ α p cs) {id : CellId} (hcell : ∀ s : Slot, s.cell ≠ id)
    (hsessions : p.merges → ∀ key, id ≠ sessionsAt key) : cs[id]? = none := by
  refine Option.eq_none_iff_forall_ne_some.2 fun bs hbs => ?_
  rcases h.tidy id bs hbs with ⟨s, _, hs, _⟩ | ⟨hm, key, _, hkey, _⟩
  · exact hcell s hs.symm
  · exact hsessions hm key hkey

/-- Sound contents are known by their entries. -/
theorem Sound.eq_of_entryAt (h : Sound κ α p cs) (h' : Sound κ α p cs')
    (hsame : ∀ s, cs.entryAt α s = cs'.entryAt α s) : cs = cs' := by
  refine Table.cells_ext (fun s => ?_) fun id hcell => ?_
  · rw [h.getElem?_cell, h'.getElem?_cell, hsame]
  · by_cases hid : p.merges ∧ ∃ key, id = sessionsAt key
    · obtain ⟨hm, key, rfl⟩ := hid
      have hlive : cs.live key = cs'.live key := h.live_eq h' hm fun w => by rw [hsame]
      rw [h.getElem?_sessionsAt hm, h'.getElem?_sessionsAt hm, hlive]
    · have hsessions : p.merges → ∀ key, id ≠ sessionsAt key :=
        fun hm key he => hid ⟨hm, key, he⟩
      rw [h.getElem?_eq_none hcell hsessions, h'.getElem?_eq_none hcell hsessions]

/-- The window that a candidate of a key grows to, where windows merge. -/
def target (cs : Cells) (key : Bytes) (a : Window) : Window := (Window.absorb (cs.live key) a).merged

section

omit [LawfulEncoding α]

variable (h : Sound κ α p cs) (hm : p.merges) {key : Bytes} {a b : Window}

include h hm

theorem Sound.hull_target (key : Bytes) (a : Window) :
    Window.Hull (fun w => w = a ∨ w ∈ cs.live key ∧ a.touches w) (cs.target key a) :=
  Window.hull_merged (h.proper_live hm key) (h.apart hm key) a

theorem Sound.target_touches_iff (hb : b.Proper) : (cs.target key a).touches b ↔
    a.touches b ∨ ∃ w ∈ cs.live key, a.touches w ∧ w.touches b :=
  Window.touches_merged_iff (h.proper_live hm key) (h.apart hm key) hb

theorem Sound.entryAt_of_not_mem {w : Window} (hw : w ∉ cs.live key) :
    cs.entryAt α ⟨key, w⟩ = none := by
  rwa [h.mem_live hm, Option.not_isSome_iff_eq_none] at hw

end

end Cells

/-! ### Two payloads -/

/-- A payload for a candidate window of a key. -/
structure Intake (ν : Type) where
  key : Bytes
  payload : ν
  candidate : Window

namespace Cells

variable {κ ν α : Type} [Encoding κ] [Encoding α] [CommMonoid α] {single : ν → α} {p : Policy}
  {cs c₁ c₂ d₁ d₂ : Cells} {i j : Intake ν}

/-- The product of the accumulators of some live windows of a key. -/
def weight (α : Type) [Encoding α] [CommMonoid α] (cs : Cells) (key : Bytes) (t : Window → Bool) :
    α :=
  (cs.accs α key ((cs.live key).filter t)).prod

/-- Sound contents `cs` take in a payload, which leads to `cs'`. -/
structure Gains (κ : Type) [Encoding κ] (p : Policy) (single : ν → α) (i : Intake ν)
    (cs cs' : Cells) : Prop where
  sound : Sound κ α p cs'
  grows : p.Grows i.key (p.settle (cs.live i.key) i.candidate)
    ((cs.accs α i.key (p.settle (cs.live i.key) i.candidate).absorbed).prod * single i.payload)
    (cs.entryAt α) (cs'.entryAt α)

omit [CommMonoid α] in
theorem accs_append (key : Bytes) (vs ws : List Window) :
    cs.accs α key (vs ++ ws) = cs.accs α key vs ++ cs.accs α key ws := List.filterMap_append

theorem prod_accs_of_perm {key : Bytes} {vs ws : List Window} (h : vs.Perm ws) :
    (cs.accs α key vs).prod = (cs.accs α key ws).prod := (h.filterMap _).prod_eq

theorem weight_congr {key : Bytes} {t u : Window → Bool} (h : ∀ w ∈ cs.live key, t w = u w) :
    cs.weight α key t = cs.weight α key u := by
  rw [weight, weight, List.filter_congr h]

/-- The windows that satisfy `t` come before those that satisfy `u` only. -/
theorem weight_or (key : Bytes) (t u : Window → Bool) :
    cs.weight α key (fun w => t w || u w) =
      cs.weight α key t * cs.weight α key (fun w => !t w && u w) := by
  have hsplit := List.filter_append_perm t ((cs.live key).filter fun w => t w || u w)
  rw [List.filter_filter, List.filter_filter] at hsplit
  rw [weight, ← prod_accs_of_perm hsplit, accs_append, List.prod_append]
  refine congrArg₂ (· * ·) (weight_congr fun w _ => ?_) (weight_congr fun w _ => ?_)
  · cases t w <;> simp
  · cases t w <;> simp

/-- Two payloads of a key ended in one window. -/
def Pools (p : Policy) (single : ν → α) (key : Bytes) (v u : ν) (a b : Window) (cs c₂ : Cells) :
    Prop :=
  ∃ m, Window.Hull
      (fun w => (w = a ∨ w = b) ∨ w ∈ cs.live key ∧ (a.touches w ∨ b.touches w)) m ∧
    ∀ s, c₂.entryAt α s =
      if s = ⟨key, m⟩ then
        some ⟨cs.weight α key (fun w => a.touches w || b.touches w) * single v * single u,
          p.firesAt m⟩
      else if s.key = key ∧ (a.touches s.window ∨ b.touches s.window) then none
      else cs.entryAt α s

section Merging

variable {key : Bytes} {v u : ν} {a b : Window} (h : Sound κ α p cs) (hm : p.merges)
  (hi : Gains κ p single ⟨key, v, a⟩ cs c₁)

include h hm hi

/-- Where windows merge, a payload goes into one entry together with the entries of all windows
that its candidate touches. -/
theorem Gains.entryAt (s : Slot) : c₁.entryAt α s =
    if s = ⟨key, cs.target key a⟩ then
      some ⟨cs.weight α key a.touches * single v, p.firesAt (cs.target key a)⟩
    else if s.key = key ∧ a.touches s.window then none else cs.entryAt α s := by
  have hgrows := hi.grows s
  have habsorbed : (Window.absorb (cs.live key) a).absorbed = (cs.live key).filter a.touches := by
    rw [Window.absorb_of_apart (h.proper_live hm key) (h.apart hm key)]
    rfl
  simp only [Policy.settle, if_pos hm, habsorbed, List.mem_filter] at hgrows
  rw [hgrows]
  refine if_congr Iff.rfl rfl ?_
  by_cases hs : s.key = key ∧ a.touches s.window
  · by_cases hw : s.window ∈ cs.live key
    · rw [if_pos ⟨hs.1, hw, hs.2⟩, if_pos hs]
    · obtain ⟨key', w⟩ := s
      obtain ⟨rfl, ht⟩ := hs
      rw [if_neg fun hl => hw hl.2.1, if_pos ⟨rfl, ht⟩]
      exact h.entryAt_of_not_mem hm hw
  · rw [if_neg fun hl => hs ⟨hl.1, hl.2.2⟩, if_neg hs]

theorem Gains.mem_live (w : Window) :
    w ∈ c₁.live key ↔ w = cs.target key a ∨ w ∈ cs.live key ∧ ¬ a.touches w := by
  rw [hi.sound.mem_live hm, hi.entryAt h hm, h.mem_live hm]
  by_cases hw : w = cs.target key a
  · simp [hw]
  · by_cases ht : a.touches w <;> simp [hw, ht]

/-- What the payload does not touch keeps its entry. -/
theorem Gains.entryAt_of_not_touches (ha : a.Proper) {w : Window} (hw : ¬ a.touches w) :
    c₁.entryAt α ⟨key, w⟩ = cs.entryAt α ⟨key, w⟩ := by
  have hne : w ≠ cs.target key a := fun he => hw (he ▸ Window.touches_merged ha)
  rw [hi.entryAt h hm]
  simp [hne, hw]

/-- The accumulators of the live windows that satisfy `t`, after a payload. -/
theorem Gains.weight (ha : a.Proper) (t : Window → Bool) : c₁.weight α key t =
    (if t (cs.target key a) then cs.weight α key a.touches * single v else 1) *
      cs.weight α key (fun w => !a.touches w && t w) := by
  have htarget : a.touches (cs.target key a) := Window.touches_merged ha
  have hperm : ((c₁.live key).filter t).Perm ([cs.target key a].filter t ++
      (cs.live key).filter fun w => !a.touches w && t w) := by
    have hdisjoint : ([cs.target key a].filter t).Disjoint
        ((cs.live key).filter fun w => !a.touches w && t w) := by
      intro w hw hw'
      obtain rfl := List.mem_singleton.1 (List.mem_filter.1 hw).1
      simp [htarget] at hw'
    have hbefore := (h.ascending_live hm key).nodup
    have hafter := (hi.sound.ascending_live hm key).nodup
    refine (List.perm_ext_iff_of_nodup (hafter.filter t)
      (((List.nodup_singleton _).filter t).append (hbefore.filter _) hdisjoint)).2 fun w => ?_
    rw [List.mem_filter, hi.mem_live h hm, List.mem_append, List.mem_filter, List.mem_filter,
      List.mem_singleton, or_and_right, and_assoc]
    simp
  have hkept : c₁.accs α key ((cs.live key).filter fun w => !a.touches w && t w) =
      cs.accs α key ((cs.live key).filter fun w => !a.touches w && t w) := by
    refine List.filterMap_congr fun w hw => ?_
    have hfree := (List.mem_filter.1 hw).2
    rw [Bool.and_eq_true, Bool.not_eq_true'] at hfree
    rw [hi.entryAt_of_not_touches h hm ha (by simp [hfree.1])]
  rw [Cells.weight, prod_accs_of_perm hperm, accs_append, List.prod_append, hkept]
  refine congrArg (· * _) ?_
  by_cases ht : t (cs.target key a)
  · have hentry := hi.entryAt h hm ⟨key, cs.target key a⟩
    rw [if_pos rfl] at hentry
    rw [if_pos ht]
    simp [accs, hentry, ht]
  · simp [ht, accs]

/-- When the first payload's window touches the second candidate, both payloads end in one window,
the least one around both candidates and all that these touch. -/
theorem Gains.pools (hj : Gains κ p single ⟨key, u, b⟩ c₁ c₂) (ha : a.Proper)
    (hjoin : (cs.target key a).touches b) : Pools p single key v u a b cs c₂ := by
  have hbt : b.touches (cs.target key a) := by rwa [Window.touches_comm]
  have hrest := (hi.sound.hull_target hm key b).congr
    (T := fun w => w = cs.target key a ∨
      (w = b ∨ w ∈ cs.live key ∧ ¬ a.touches w ∧ b.touches w)) fun w => by
    rw [hi.mem_live h hm]
    by_cases hw : w = cs.target key a
    · simp [hw, hbt]
    · simp [hw, and_assoc]
  refine ⟨c₁.target key b, ((h.hull_target hm key a).join hrest).congr fun w => ?_, fun s => ?_⟩
  · by_cases hat : a.touches w <;> simp [hat, or_assoc, or_comm, or_left_comm]
  · rw [hj.entryAt hi.sound hm, hi.weight h hm ha, if_pos hbt, weight_or]
    refine if_congr Iff.rfl ?_ ?_
    · rw [mul_right_comm (cs.weight α key a.touches)]
    · by_cases hb : s.key = key ∧ b.touches s.window
      · rw [if_pos hb, if_pos ⟨hb.1, .inr hb.2⟩]
      · have hne : s ≠ ⟨key, cs.target key a⟩ := by
          rintro rfl
          exact hb ⟨rfl, hbt⟩
        rw [if_neg hb, hi.entryAt h hm, if_neg hne]
        refine if_congr ?_ rfl rfl
        tauto

/-- Otherwise the second payload finds all as if the first had not come. -/
theorem Gains.spares (ha : a.Proper) (hb : b.Proper) (hfree : ¬ (cs.target key a).touches b) :
    c₁.target key b = cs.target key b ∧
      c₁.weight α key b.touches = cs.weight α key b.touches := by
  have hbt : ¬ b.touches (cs.target key a) := by rwa [Window.touches_comm]
  have hnot : ∀ w ∈ cs.live key, b.touches w → ¬ a.touches w := by
    intro w hw hbw haw
    refine hfree ((h.target_touches_iff hm hb).2 (.inr ⟨w, hw, haw, ?_⟩))
    rwa [Window.touches_comm]
  constructor
  · refine ((hi.sound.hull_target hm key b).congr fun w => ?_).unique (h.hull_target hm key b)
    refine or_congr_right ?_
    rw [hi.mem_live h hm]
    constructor
    · rintro ⟨rfl | ⟨hw, _⟩, hbw⟩
      · exact absurd hbw hbt
      · exact ⟨hw, hbw⟩
    · exact fun ⟨hw, hbw⟩ => ⟨.inr ⟨hw, hnot w hw hbw⟩, hbw⟩
  · rw [hi.weight h hm ha, if_neg hbt, one_mul]
    refine weight_congr fun w hw => ?_
    cases hbw : b.touches w with
    | false => simp
    | true => simp [hnot w hw hbw]

/-- Two payloads of a key may change places. -/
theorem Gains.comm_of_merges (hj : Gains κ p single ⟨key, u, b⟩ c₁ c₂)
    (hj' : Gains κ p single ⟨key, u, b⟩ cs d₁) (hi' : Gains κ p single ⟨key, v, a⟩ d₁ d₂)
    (ha : a.Proper) (hb : b.Proper) (s : Slot) : c₂.entryAt α s = d₂.entryAt α s := by
  have hcomm : (cs.target key b).touches a ↔ (cs.target key a).touches b := by
    rw [h.target_touches_iff hm ha, h.target_touches_iff hm hb, Window.touches_comm b a]
    refine or_congr_right (exists_congr fun w => and_congr_right fun _ => ?_)
    rw [Window.touches_comm b w, Window.touches_comm w a, and_comm]
  by_cases hjoin : (cs.target key a).touches b
  · obtain ⟨m, hull, hentry⟩ := hi.pools h hm hj ha hjoin
    obtain ⟨m', hull', hentry'⟩ := hj'.pools h hm hi' hb (hcomm.2 hjoin)
    have hsame : m = m' := hull.unique (hull'.congr fun w => by
      rw [or_comm (a := w = b), or_comm (a := (b.touches w : Prop))])
    have hweight : cs.weight α key (fun w => b.touches w || a.touches w) =
        cs.weight α key (fun w => a.touches w || b.touches w) :=
      weight_congr fun w _ => Bool.or_comm _ _
    rw [hentry, hentry', hsame, hweight, mul_right_comm]
    exact if_congr Iff.rfl rfl (if_congr (and_congr_right fun _ => or_comm) rfl rfl)
  · have hfree' : ¬ (cs.target key b).touches a := fun ht => hjoin (hcomm.1 ht)
    obtain ⟨htarget, hweight⟩ := hi.spares h hm ha hb hjoin
    obtain ⟨htarget', hweight'⟩ := hj'.spares h hm hb ha hfree'
    rw [hj.entryAt hi.sound hm, hi'.entryAt hj'.sound hm, htarget, hweight, htarget', hweight',
      hi.entryAt h hm, hj'.entryAt h hm]
    -- the two windows are not the same, and neither candidate touches the other's
    have hat : a.touches (cs.target key a) := Window.touches_merged ha
    have hbt : b.touches (cs.target key b) := Window.touches_merged hb
    have hab : ¬ a.touches (cs.target key b) := by rwa [Window.touches_comm]
    have hba : ¬ b.touches (cs.target key a) := by rwa [Window.touches_comm]
    have hne : cs.target key a ≠ cs.target key b := fun he => hab (he ▸ hat)
    obtain ⟨key', w⟩ := s
    by_cases hk : key' = key
    · by_cases hwa : w = cs.target key a
      · simp [hk, hwa, hne, hba]
      · by_cases hwb : w = cs.target key b
        · simp [hk, hwb, hne.symm, hab]
        · by_cases hbw : b.touches w <;> simp [hk, hwa, hwb, hbw]
    · simp [hk]

end Merging

/-! ### Payloads that do not meet -/

theorem Gains.entryAt_of_key_ne (hi : Gains κ p single i cs c₁) {s : Slot} (hs : s.key ≠ i.key) :
    c₁.entryAt α s = cs.entryAt α s := by
  rw [hi.grows, if_neg fun he => hs (by rw [he]), if_neg fun he => hs he.1]

/-- What a payload makes of its key depends on nothing but that key. -/
theorem Gains.agree (h : Sound κ α p cs) (hd : Sound κ α p d₁) (hi : Gains κ p single i cs c₁)
    (hi' : Gains κ p single i d₁ d₂)
    (hsame : ∀ w, cs.entryAt α ⟨i.key, w⟩ = d₁.entryAt α ⟨i.key, w⟩) {s : Slot}
    (hs : s.key = i.key) : c₁.entryAt α s = d₂.entryAt α s := by
  have hsettle : p.settle (cs.live i.key) i.candidate = p.settle (d₁.live i.key) i.candidate := by
    by_cases hm : p.merges
    · rw [h.live_eq hd hm fun w => by rw [hsame]]
    · rw [Policy.settle, Policy.settle, if_neg hm, if_neg hm]
  have haccs : ∀ ws, cs.accs α i.key ws = d₁.accs α i.key ws := fun ws =>
    List.filterMap_congr fun w _ => by rw [hsame]
  obtain ⟨key, w⟩ := s
  obtain rfl : key = i.key := hs
  rw [hi.grows, hi'.grows, hsettle, haccs, hsame]

theorem Gains.comm_of_ne (h : Sound κ α p cs) (hi : Gains κ p single i cs c₁)
    (hj : Gains κ p single j c₁ c₂) (hj' : Gains κ p single j cs d₁)
    (hi' : Gains κ p single i d₁ d₂) (hne : i.key ≠ j.key) (s : Slot) :
    c₂.entryAt α s = d₂.entryAt α s := by
  by_cases hs : s.key = i.key
  · rw [hj.entryAt_of_key_ne (fun he => hne (hs.symm.trans he))]
    exact hi.agree h hj'.sound hi' (fun w => (hj'.entryAt_of_key_ne hne).symm) hs
  · rw [hi'.entryAt_of_key_ne hs]
    by_cases hs' : s.key = j.key
    · exact (hj'.agree h hi.sound hj (fun w => (hi.entryAt_of_key_ne hne.symm).symm) hs').symm
    · rw [hj.entryAt_of_key_ne hs', hi.entryAt_of_key_ne hs, hj'.entryAt_of_key_ne hs']

section Plain

variable {key : Bytes} {v u : ν} {a b : Window} (hm : ¬ p.merges)

include hm

/-- Where windows do not merge, a payload goes into the entry of its candidate. -/
theorem Gains.entryAt_of_plain (hi : Gains κ p single ⟨key, v, a⟩ cs c₁) (s : Slot) :
    c₁.entryAt α s = if s = ⟨key, a⟩ then
      some ⟨(cs.accs α key [a]).prod * single v, p.firesAt a⟩ else cs.entryAt α s := by
  have hgrows := hi.grows s
  rw [Policy.settle, if_neg hm] at hgrows
  rw [hgrows]
  by_cases hs : s = ⟨key, a⟩
  · rw [if_pos hs, if_pos hs]
  · have hother : ¬ (s.key = key ∧ s.window ∈ [a]) := by
      rintro ⟨hk, hw⟩
      exact hs (by rw [← hk, ← List.mem_singleton.1 hw])
    rw [if_neg hs, if_neg hs, if_neg hother]

theorem Gains.accs_of_plain (hi : Gains κ p single ⟨key, v, a⟩ cs c₁) (b : Window) :
    c₁.accs α key [b] =
      if b = a then [(cs.accs α key [a]).prod * single v] else cs.accs α key [b] := by
  have hentry := hi.entryAt_of_plain hm ⟨key, b⟩
  by_cases hb : b = a
  · subst hb
    rw [if_pos rfl] at hentry
    rw [if_pos rfl, accs, List.filterMap_cons, hentry]
    rfl
  · rw [if_neg (by simp [hb])] at hentry
    rw [if_neg hb]
    exact List.filterMap_congr fun w hw => by rw [List.mem_singleton.1 hw, hentry]

theorem Gains.comm_of_plain (hi : Gains κ p single ⟨key, v, a⟩ cs c₁)
    (hj : Gains κ p single ⟨key, u, b⟩ c₁ c₂) (hj' : Gains κ p single ⟨key, u, b⟩ cs d₁)
    (hi' : Gains κ p single ⟨key, v, a⟩ d₁ d₂) (s : Slot) : c₂.entryAt α s = d₂.entryAt α s := by
  rw [hj.entryAt_of_plain hm, hi'.entryAt_of_plain hm, hi.entryAt_of_plain hm,
    hj'.entryAt_of_plain hm, hi.accs_of_plain hm, hj'.accs_of_plain hm]
  by_cases hab : a = b
  · subst hab
    by_cases hs : s = ⟨key, a⟩
    · simp [hs, mul_right_comm]
    · simp [hs]
  · by_cases hs : s = ⟨key, a⟩
    · simp [hs, hab]
    · simp [hs, Ne.symm hab]

end Plain

/-- Two payloads may change places. -/
theorem Gains.comm [LawfulEncoding α] (h : Sound κ α p cs) (hi : Gains κ p single i cs c₁)
    (hj : Gains κ p single j c₁ c₂) (hj' : Gains κ p single j cs d₁)
    (hi' : Gains κ p single i d₁ d₂) (hpi : p.merges → i.candidate.Proper)
    (hpj : p.merges → j.candidate.Proper) : c₂ = d₂ := by
  refine hj.sound.eq_of_entryAt hi'.sound fun s => ?_
  by_cases hk : i.key = j.key
  · obtain ⟨key, v, a⟩ := i
    obtain ⟨key', u, b⟩ := j
    obtain rfl : key = key' := hk
    by_cases hm : p.merges
    · exact hi.comm_of_merges h hm hj hj' hi' (hpi hm) (hpj hm) s
    · exact hi.comm_of_plain hm hj hj' hi' s
  · exact hi.comm_of_ne h hj hj' hi' hk s

end Cells

/-! ### Many payloads -/

namespace Ledger

variable {κ ν α ω : Type} [Encoding κ] [Encoding α] {p : Policy} {g : Aggregate ν α ω} {cs : Cells}

/-- The contents after a payload. -/
def takeIn (p : Policy) (g : Aggregate ν α ω) (cs : Cells) (i : Intake ν) : Except Error Cells :=
  Prod.snd <$> accumulate p g i.key i.payload i.candidate cs

/-- The contents after many payloads. -/
def takeAll (p : Policy) (g : Aggregate ν α ω) (cs : Cells) (is : List (Intake ν)) :
    Except Error Cells :=
  is.foldlM (takeIn p g) cs

end Ledger

/-- The key can be read back, and the candidate is fit to merge. -/
structure Intake.Fit (κ : Type) [Encoding κ] {ν : Type} (p : Policy) (i : Intake ν) : Prop where
  key : KeyOf κ i.key
  proper : p.merges → i.candidate.Proper

namespace Ledger

variable {κ ν α ω : Type} [Encoding κ] [Encoding α] [LawfulEncoding α] {p : Policy}
  {g : Aggregate ν α ω} {cs : Cells} {is js : List (Intake ν)}

theorem exists_takeIn [CommMonoid α] {single : ν → α} (hg : g.Multiplies single)
    (h : Cells.Sound κ α p cs) {i : Intake ν} (hi : i.Fit κ p) :
    ∃ cs', takeIn p g cs i = .ok cs' ∧ Cells.Gains κ p single i cs cs' := by
  have hspec := accumulate_spec h hi.key g i.payload hi.proper rfl
  rw [hg.grow_eq] at hspec
  obtain ⟨cs', hrun, hsound, hgrows⟩ := hspec
  exact ⟨cs', by rw [takeIn, hrun]; rfl, hsound, hgrows⟩

/-- Payloads may be taken in in any order. -/
theorem takeAll_perm (hg : g.Monoidal) (hperm : is.Perm js) (hfit : ∀ i ∈ is, i.Fit κ p)
    (h : Cells.Sound κ α p cs) : takeAll p g cs is = takeAll p g cs js := by
  obtain ⟨_, single, hg⟩ := hg.exists_multiplies
  induction hperm generalizing cs with
  | nil => rfl
  | cons i _ ih =>
    obtain ⟨c₁, hrun, hgains⟩ := exists_takeIn hg h (hfit i (by simp))
    have hrest := ih (fun j hj => hfit j (by simp [hj])) hgains.sound
    rw [takeAll, takeAll, List.foldlM_cons, List.foldlM_cons, hrun]
    exact hrest
  | swap i j l =>
    have hi := hfit i (by simp)
    have hj := hfit j (by simp)
    obtain ⟨c₁, hrun₁, hgains₁⟩ := exists_takeIn hg h hi
    obtain ⟨c₂, hrun₂, hgains₂⟩ := exists_takeIn hg hgains₁.sound hj
    obtain ⟨d₁, hrun₁', hgains₁'⟩ := exists_takeIn hg h hj
    obtain ⟨d₂, hrun₂', hgains₂'⟩ := exists_takeIn hg hgains₁'.sound hi
    have hsame := hgains₁.comm h hgains₂ hgains₁' hgains₂' hi.proper hj.proper
    rw [takeAll, takeAll, List.foldlM_cons, List.foldlM_cons, hrun₁, hrun₁']
    show (takeIn p g d₁ i >>= fun cs => l.foldlM (takeIn p g) cs) =
      (takeIn p g c₁ j >>= fun cs => l.foldlM (takeIn p g) cs)
    rw [hrun₂, hrun₂', hsame]
  | trans hperm₁ _ ih₁ ih₂ =>
    rw [ih₁ hfit h, ih₂ (fun i hi => hfit i (hperm₁.mem_iff.2 hi)) h]

end Ledger

end Tidemark
