import Mathlib.Data.List.Basic
import Tidemark.Proofs.Aggregate
import Tidemark.Proofs.Table.Ledger
import Tidemark.Proofs.Window.Absorption
import Tidemark.Window.Assignment

/-! Sound contents: nothing but entries and session lists is stored, every entry fires when its
window does, and a key's sessions are the windows of its entries, apart and ascending. Taking in a
payload and retiring a slot keep the contents sound. -/

namespace Tidemark

namespace Cells

variable {ν α ω : Type}

/-- The live sessions of a key, as far as they can be read. -/
def live (cs : Cells) (key : Bytes) : List Window := (cs.sessions key).toOption.getD []

def dropAll (cs : Cells) (key : Bytes) (ws : List Window) : Cells :=
  ws.foldl (fun cs w => cs.dropEntry ⟨key, w⟩) cs

/-- A slot leaves, together with its session. -/
def retire (merges : Bool) (cs : Cells) (s : Slot) : Cells :=
  if merges then (cs.dropEntry s).setSessions s.key ((cs.live s.key).erase s.window)
  else cs.dropEntry s

theorem sessions_dropAll (key : Bytes) (ws : List Window) (cs : Cells) (key' : Bytes) :
    (cs.dropAll key ws).sessions key' = cs.sessions key' := by
  induction ws generalizing cs with
  | nil => rfl
  | cons w ws ih => exact (ih _).trans (sessions_dropEntry cs ⟨key, w⟩ key')

variable [Encoding α]

/-- The accumulators of some windows of a key. -/
def accs (α : Type) [Encoding α] (cs : Cells) (key : Bytes) (ws : List Window) : List α :=
  ws.filterMap fun w => (cs.entryAt α ⟨key, w⟩).map Entry.acc

theorem entryAt_dropAll (key : Bytes) (ws : List Window) (cs : Cells) (s : Slot) :
    (cs.dropAll key ws).entryAt α s =
      if s.key = key ∧ s.window ∈ ws then none else cs.entryAt α s := by
  induction ws generalizing cs with
  | nil => simp [dropAll]
  | cons w ws ih =>
    have h := ih (cs.dropEntry ⟨key, w⟩)
    rw [entryAt_dropEntry] at h
    apply h.trans
    obtain ⟨key', w'⟩ := s
    simp only [Slot.mk.injEq, List.mem_cons, eq_comm (a := key), eq_comm (a := w)]
    by_cases hk : key' = key
    · by_cases hw : w' = w <;> simp [hk, hw]
    · simp [hk]

theorem accs_dropEntry {key : Bytes} {w : Window} {ws : List Window} (cs : Cells) (h : w ∉ ws) :
    (cs.dropEntry ⟨key, w⟩).accs α key ws = cs.accs α key ws := by
  refine List.filterMap_congr fun v hv => ?_
  have hwv : w ≠ v := fun he => h (he ▸ hv)
  simp [hwv]

end Cells

/-! ### What the ledger commands do -/

namespace Ledger

variable {ν α ω : Type} [Encoding α]

theorem add_eq (g : Aggregate ν α ω) (s : Slot) (fireAt : Timestamp) (v : ν) (cs : Cells) :
    add g s fireAt v cs =
      match g.add (((cs.entryAt α s).map Entry.acc).getD g.create) v with
      | .ok acc => .ok ((cs.entryAt α s).isNone, cs.setEntry s ⟨acc, fireAt⟩)
      | .error reason => .error (.aggregation s.window reason) := by
  simp only [add, run_bind, run_find, run_aggregated, run_hold, run_pure]
  cases g.add (((cs.entryAt α s).map Entry.acc).getD g.create) v <;> rfl

theorem finish_eq (g : Aggregate ν α ω) (s : Slot) (cs : Cells) :
    finish g s cs =
      match cs.entryAt α s with
      | none => .ok (none, cs)
      | some e =>
        match g.result e.acc with
        | .ok value => .ok (some value, cs)
        | .error reason => .error (.aggregation s.window reason) := by
  simp only [finish, run_bind, run_find]
  cases cs.entryAt α s with
  | none => rfl
  | some e =>
    simp only [map_eq_pure_bind, run_bind, run_aggregated]
    cases g.result e.acc <;> rfl

omit [Encoding α] in
theorem append_eq (g : Aggregate ν α ω) (target : Window) (acc : Option α) (e : Entry α)
    (cs : Cells) :
    append g target acc (some e) cs =
      match g.join acc e.acc with
      | .ok acc => .ok (acc, cs)
      | .error reason => .error (.aggregation target reason) := by
  cases acc with
  | none => rfl
  | some acc =>
    simp only [append, Aggregate.join, map_eq_pure_bind, run_bind, run_aggregated]
    cases g.merge acc e.acc <;> rfl

/-- Gathering merges the accumulators of the windows in order, and drops their entries. -/
theorem gather_eq (g : Aggregate ν α ω) (key : Bytes) (target : Window) {ws : List Window}
    (hws : ws.Nodup) (acc : Option α) (cs : Cells) :
    gather g key target acc ws cs =
      match (cs.accs α key ws).foldlM g.join acc with
      | .ok acc => .ok (acc, cs.dropAll key ws)
      | .error reason => .error (.aggregation target reason) := by
  induction ws generalizing acc cs with
  | nil => rfl
  | cons w ws ih =>
    obtain ⟨hw, hws⟩ := List.nodup_cons.1 hws
    have hstep : gather g key target acc (w :: ws) cs =
        (append g target acc (cs.entryAt α ⟨key, w⟩) >>= fun acc => gather g key target acc ws)
          (cs.dropEntry ⟨key, w⟩) := rfl
    have haccs : (cs.dropEntry ⟨key, w⟩).accs α key ws = cs.accs α key ws := cs.accs_dropEntry hw
    cases he : cs.entryAt α ⟨key, w⟩ with
    | none =>
      have hcons : cs.accs α key (w :: ws) = cs.accs α key ws := by simp [Cells.accs, he]
      rw [hstep, he, hcons, ← haccs, run_bind]
      exact ih hws acc _
    | some e =>
      have hcons : cs.accs α key (w :: ws) = e.acc :: cs.accs α key ws := by simp [Cells.accs, he]
      rw [hstep, he, hcons, run_bind, append_eq, List.foldlM_cons, ← haccs]
      cases g.join acc e.acc with
      | error reason => rfl
      | ok acc => exact ih hws acc _

end Ledger

/-! ### Sound contents -/

/-- The bytes of a key that can be read back. -/
def KeyOf (κ : Type) [Encoding κ] (bs : Bytes) : Prop :=
  ∃ k : κ, Encoding.Faithful k ∧ encode k = bs

namespace Policy

variable {α : Type} {p : Policy} {key : Bytes} {m : Merger} {acc : α}
  {f f' : Slot → Option (Entry α)}

/-- The entries `f` become `f'`: the window that a candidate of a key grew to holds `acc`, and the
windows that it took in hold nothing. -/
def Grows (p : Policy) (key : Bytes) (m : Merger) (acc : α) (f f' : Slot → Option (Entry α)) :
    Prop :=
  ∀ s, f' s =
    if s = ⟨key, m.merged⟩ then some ⟨acc, p.firesAt m.merged⟩
    else if s.key = key ∧ s.window ∈ m.absorbed then none else f s

theorem Grows.isSome_iff (h : p.Grows key m acc f f') (s : Slot) : (f' s).isSome ↔
    s = ⟨key, m.merged⟩ ∨ (f s).isSome ∧ ¬ (s.key = key ∧ s.window ∈ m.absorbed) := by
  rw [h s]
  split
  · next he => simp [he]
  · next he =>
    split
    · next ha => simp [he, ha]
    · next ha => simp only [he, ha, false_or, not_false_eq_true, and_true]

theorem Grows.fireAt (h : p.Grows key m acc f f')
    (hf : ∀ s e, f s = some e → e.fireAt = p.firesAt s.window) {s : Slot} {e : Entry α}
    (hs : f' s = some e) : e.fireAt = p.firesAt s.window := by
  rw [h s] at hs
  split at hs
  · next he => rw [← Option.some.inj hs, he]
  · split at hs
    · cases hs
    · exact hf s e hs

end Policy

namespace Cells

/-- Nothing but entries is stored and, if windows merge, lists of live sessions. -/
def Tidy (α : Type) [Encoding α] (merges : Bool) (cs : Cells) : Prop :=
  ∀ (id : CellId) (bs : Bytes), cs[id]? = some bs →
    (∃ (s : Slot) (e : Entry α), id = s.cell ∧ bs = encode e) ∨
    (merges ∧ ∃ (key : Bytes) (ws : List Window), id = sessionsAt key ∧ bs = encode ws ∧ ws ≠ [] ∧
      ws.length < 2 ^ 64)

structure Sound (κ α : Type) [Encoding κ] [Encoding α] (p : Policy) (cs : Cells) : Prop where
  tidy : Tidy α p.merges cs
  key : ∀ s, (cs.entryAt α s).isSome → KeyOf κ s.key
  proper : p.merges → ∀ s, (cs.entryAt α s).isSome → s.window.Proper
  fireAt : ∀ s e, cs.entryAt α s = some e → e.fireAt = p.firesAt s.window
  sessions : p.merges → ∀ key, cs.sessions key = .ok (cs.live key)
  apart : p.merges → ∀ key, Window.Apart (cs.live key)
  mem_live : p.merges → ∀ key w, w ∈ cs.live key ↔ (cs.entryAt α ⟨key, w⟩).isSome

variable {κ ν α ω : Type} [Encoding κ] [Encoding α] {p : Policy} {cs : Cells}

theorem tidy_empty (merges : Bool) : Tidy α merges ∅ := by
  intro id bs h
  simp at h

theorem Tidy.readable [LawfulEncoding α] {merges : Bool} (h : Tidy α merges cs) :
    Table.EntriesReadable α cs := by
  intro id bs hid hbs
  rcases h id bs hbs with ⟨s, e, _, rfl⟩ | ⟨_, key, ws, rfl, _⟩
  · exact ⟨e, (faithful e).decode_encode⟩
  · simp [sessionsAt, entryCell] at hid

theorem Tidy.setEntry {merges : Bool} (h : Tidy α merges cs) (s : Slot) (e : Entry α) :
    Tidy α merges (cs.setEntry s e) := by
  intro id bs hbs
  rw [getElem?_setEntry] at hbs
  split at hbs
  · next hid => exact .inl ⟨s, e, hid.symm, (Option.some.inj hbs).symm⟩
  · exact h id bs hbs

theorem Tidy.dropEntry {merges : Bool} (h : Tidy α merges cs) (s : Slot) :
    Tidy α merges (cs.dropEntry s) := by
  intro id bs hbs
  rw [getElem?_dropEntry] at hbs
  split at hbs
  · cases hbs
  · exact h id bs hbs

theorem Tidy.dropAll {merges : Bool} (h : Tidy α merges cs) (key : Bytes) (ws : List Window) :
    Tidy α merges (cs.dropAll key ws) := by
  induction ws generalizing cs with
  | nil => exact h
  | cons w ws ih => exact ih (h.dropEntry ⟨key, w⟩)

theorem Tidy.setSessions {merges : Bool} (hm : merges) (h : Tidy α merges cs) (key : Bytes)
    {ws : List Window} (hlen : ws.length < 2 ^ 64) : Tidy α merges (cs.setSessions key ws) := by
  intro id bs hbs
  rw [getElem?_setSessions] at hbs
  split at hbs
  · next hid =>
    split at hbs
    · cases hbs
    · next hws => exact .inr ⟨hm, key, ws, hid.symm, (Option.some.inj hbs).symm, hws, hlen⟩
  · exact h id bs hbs

theorem sound_empty (p : Policy) : Sound κ α p ∅ where
  tidy := tidy_empty _
  key s h := by simp at h
  proper _ s h := by simp at h
  fireAt s e h := by simp at h
  sessions _ key := by simp [live, Cells.sessions, Except.toOption]
  apart _ key := by simp [live, Cells.sessions, Except.toOption, Window.Apart]
  mem_live _ key w := by simp [live, Cells.sessions, Except.toOption]

theorem Sound.proper_live (h : Sound κ α p cs) (hm : p.merges) (key : Bytes) :
    ∀ w ∈ cs.live key, w.Proper :=
  fun w hw => h.proper hm ⟨key, w⟩ ((h.mem_live hm key w).1 hw)

theorem Sound.ascending_live (h : Sound κ α p cs) (hm : p.merges) (key : Bytes) :
    Window.Ascending (cs.live key) := (h.apart hm key).ascending (h.proper_live hm key)

/-- Where windows do not merge, an entry of a key that fires when its window does may be set. -/
theorem Sound.setEntry [LawfulEncoding α] (h : Sound κ α p cs) (hm : ¬ p.merges) {s : Slot}
    (hkey : KeyOf κ s.key) (acc : α) : Sound κ α p (cs.setEntry s ⟨acc, p.firesAt s.window⟩) where
  tidy := h.tidy.setEntry s _
  key r hr := by
    rw [entryAt_setEntry] at hr
    split at hr
    · next he => exact he ▸ hkey
    · exact h.key r hr
  proper hm' := absurd hm' hm
  fireAt r e hr := by
    rw [entryAt_setEntry] at hr
    split at hr
    · next he => rw [← Option.some.inj hr, he]
    · exact h.fireAt r e hr
  sessions hm' := absurd hm' hm
  apart hm' := absurd hm' hm
  mem_live hm' := absurd hm' hm

/-- Where windows merge, a candidate's entry may replace those of the sessions it absorbs. -/
theorem Sound.settle (h : Sound κ α p cs) (hm : p.merges) {key : Bytes} (hkey : KeyOf κ key)
    {candidate : Window} (hc : candidate.Proper) {m : Merger}
    (habsorb : Window.absorb (cs.live key) candidate = m) {cs' : Cells}
    (htidy : Tidy α p.merges cs') {acc : α}
    (hgrows : p.Grows key m acc (cs.entryAt α) (cs'.entryAt α))
    (hsessions : ∀ key', cs'.sessions key' =
      if key = key' then .ok (Window.settled (cs.live key) candidate) else cs.sessions key') :
    Sound κ α p cs' := by
  have hproper := h.proper_live hm key
  have happart := h.apart hm key
  have hlive : ∀ key', cs'.live key' =
      if key = key' then Window.settled (cs.live key) candidate else cs.live key' := by
    intro key'
    rw [live, hsessions]
    split <;> rfl
  refine ⟨htidy, fun s hs => ?_, fun _ s hs => ?_, fun s e hs => hgrows.fireAt h.fireAt hs,
    fun _ key' => ?_, fun _ key' => ?_, fun _ key' w => ?_⟩
  · rcases (hgrows.isSome_iff s).1 hs with rfl | ⟨hs, _⟩
    · exact hkey
    · exact h.key s hs
  · rcases (hgrows.isSome_iff s).1 hs with rfl | ⟨hs, _⟩
    · exact habsorb ▸ Window.proper_merged hc
    · exact h.proper hm s hs
  · rw [hlive, hsessions]
    split
    · rfl
    · exact h.sessions hm key'
  · rw [hlive]
    split
    · exact Window.apart_settled hproper happart hc
    · exact h.apart hm key'
  · rw [hlive, hgrows.isSome_iff]
    split
    · next hk =>
      subst hk
      rw [Window.mem_settled, habsorb, h.mem_live hm]
      simp
    · next hk =>
      rw [h.mem_live hm]
      simp [Ne.symm hk]

/-! ### Retiring a slot -/

@[simp] theorem entryAt_retire (merges : Bool) (cs : Cells) (s r : Slot) :
    (cs.retire merges s).entryAt α r = if s = r then none else cs.entryAt α r := by
  unfold retire
  split <;> simp

theorem Sound.length_live (h : Sound κ α p cs) (hm : p.merges) (key : Bytes) :
    (cs.live key).length < 2 ^ 64 :=
  (h.apart hm key).length_lt (h.proper_live hm key)

theorem Sound.length_erase_live (h : Sound κ α p cs) (hm : p.merges) (s : Slot) :
    ((cs.live s.key).erase s.window).length < 2 ^ 64 :=
  Nat.lt_of_le_of_lt (List.erase_sublist.length_le) (h.length_live hm s.key)

theorem Sound.sessions_retire (h : Sound κ α p cs) (hm : p.merges) (s : Slot) (key : Bytes) :
    (cs.retire p.merges s).sessions key =
      if s.key = key then .ok ((cs.live s.key).erase s.window) else cs.sessions key := by
  rw [retire, if_pos hm, sessions_setSessions _ (h.length_erase_live hm s), sessions_dropEntry]

theorem Sound.retire (h : Sound κ α p cs) (s : Slot) : Sound κ α p (cs.retire p.merges s) := by
  have hsub : ∀ r, ((cs.retire p.merges s).entryAt α r).isSome → (cs.entryAt α r).isSome := by
    intro r hr
    rw [entryAt_retire] at hr
    split at hr
    · cases hr
    · exact hr
  have hlive : p.merges → ∀ key, (cs.retire p.merges s).live key =
      if s.key = key then (cs.live s.key).erase s.window else cs.live key := by
    intro hm key
    rw [live, h.sessions_retire hm]
    split <;> rfl
  refine ⟨?_, fun r hr => h.key r (hsub r hr), fun hm r hr => h.proper hm r (hsub r hr),
    fun r e hr => ?_, fun hm key => ?_, fun hm key => ?_, fun hm key w => ?_⟩
  · unfold Cells.retire
    split
    · next hm => exact (h.tidy.dropEntry s).setSessions hm _ (h.length_erase_live hm s)
    · exact h.tidy.dropEntry s
  · rw [entryAt_retire] at hr
    split at hr
    · cases hr
    · exact h.fireAt r e hr
  · rw [hlive hm, h.sessions_retire hm]
    split
    · rfl
    · exact h.sessions hm key
  · rw [hlive hm]
    split
    · exact (h.apart hm s.key).sublist List.erase_sublist
    · exact h.apart hm key
  · rw [hlive hm, entryAt_retire]
    obtain ⟨key', w'⟩ := s
    by_cases hk : key' = key
    · have hnodup := (h.ascending_live hm key').nodup
      subst hk
      rw [if_pos rfl, hnodup.mem_erase_iff, h.mem_live hm]
      by_cases hw : w' = w
      · simp [hw]
      · simp [hw, Ne.symm hw]
    · rw [if_neg hk, if_neg (by simp [hk]), h.mem_live hm]

/-! ### Settling a candidate -/

/-- The windows that a candidate took in hand over what was merged of them, if anything. -/
def handOver (firesAt : Window → Timestamp) (key : Bytes) (m : Merger) (found : Option α)
    (cs : Cells) : Cells :=
  match found with
  | none => cs.dropAll key m.absorbed
  | some acc => (cs.dropAll key m.absorbed).setEntry ⟨key, m.merged⟩
      (⟨acc, firesAt m.merged⟩ : Entry α)

section HandOver

variable (firesAt : Window → Timestamp) (key : Bytes) (m : Merger) (found : Option α)

theorem Tidy.handOver {merges : Bool} (h : Tidy α merges cs) :
    Tidy α merges (cs.handOver firesAt key m found) := by
  cases found with
  | none => exact h.dropAll _ _
  | some acc => exact (h.dropAll _ _).setEntry _ _

theorem sessions_handOver (key' : Bytes) :
    (cs.handOver firesAt key m found).sessions key' = cs.sessions key' := by
  cases found with
  | none => exact sessions_dropAll ..
  | some acc => rw [handOver, sessions_setEntry, sessions_dropAll]

theorem entryAt_handOver_of_ne [LawfulEncoding α] {s : Slot} (hs : s ≠ ⟨key, m.merged⟩) :
    (cs.handOver firesAt key m found).entryAt α s =
      if s.key = key ∧ s.window ∈ m.absorbed then none else cs.entryAt α s := by
  cases found with
  | none => exact entryAt_dropAll ..
  | some acc => rw [handOver, entryAt_setEntry, if_neg (Ne.symm hs), entryAt_dropAll]

theorem acc_handOver [LawfulEncoding α]
    (hnone : found = none → cs.entryAt α ⟨key, m.merged⟩ = none) :
    ((cs.handOver firesAt key m found).entryAt α ⟨key, m.merged⟩).map Entry.acc = found := by
  cases found with
  | none => simp [handOver, entryAt_dropAll, hnone rfl]
  | some acc => simp [handOver]

end HandOver

/-- A candidate of a key became `m`: the window that it grew to holds what was merged, the windows
that it took in hold nothing, and the sessions of the key are settled. -/
structure Joined (merges : Bool) (key : Bytes) (candidate : Window) (m : Merger)
    (found : Option α) (cs cs' : Cells) : Prop where
  tidy : Tidy α merges cs'
  merged : (cs'.entryAt α ⟨key, m.merged⟩).map Entry.acc = found
  others : ∀ s : Slot, s ≠ ⟨key, m.merged⟩ → cs'.entryAt α s =
    if s.key = key ∧ s.window ∈ m.absorbed then none else cs.entryAt α s
  sessions : ∀ key', cs'.sessions key' =
    if key = key' then .ok (Window.settled (cs.live key) candidate) else cs.sessions key'

section Join

variable (h : Sound κ α p cs) (hm : p.merges) {key : Bytes} {candidate : Window}
  (hc : candidate.Proper) {m : Merger} (habsorb : Window.absorb (cs.live key) candidate = m)

include h hm

theorem Sound.eq_nil_of_accs {ws : List Window} (hws : ∀ w ∈ ws, w ∈ cs.live key)
    (hnil : cs.accs α key ws = []) : ws = [] := by
  cases ws with
  | nil => rfl
  | cons w ws =>
    obtain ⟨e, he⟩ := Option.isSome_iff_exists.1 ((h.mem_live hm key w).1 (hws w (by simp)))
    simp [accs, he] at hnil

include hc habsorb

/-- A candidate inside a single session leaves all as it is. -/
theorem Sound.joined_of_isIdle (hi : m.isIdle) : Joined p.merges key candidate m
    ((cs.entryAt α ⟨key, m.merged⟩).map Entry.acc) cs cs := by
  have habs : m.absorbed = [m.merged] := by simpa [Merger.isIdle] using hi
  have hidle : Window.settled (cs.live key) candidate = cs.live key :=
    Window.settled_of_absorbed_eq (h.ascending_live hm key) hc (by rw [habsorb, habs])
  refine ⟨h.tidy, rfl, fun s hs => ?_, fun key' => ?_⟩
  · rw [if_neg]
    rintro ⟨hk, hw⟩
    rw [habs] at hw
    exact hs (by rw [← hk, ← List.mem_singleton.1 hw])
  · split
    · next hk => rw [← hk, hidle, h.sessions hm]
    · rfl

/-- Otherwise the sessions that a candidate touches hand over to the window that it grew to. -/
theorem Sound.joined_handOver [LawfulEncoding α] {found : Option α}
    (hfound : found = none → cs.accs α key m.absorbed = []) :
    Joined p.merges key candidate m found cs ((cs.handOver p.firesAt key m found).setSessions key
      (Window.settled (cs.live key) candidate)) := by
  have hproper := h.proper_live hm key
  have happart := h.apart hm key
  have hmem : ∀ w, w ∈ m.absorbed ↔ w ∈ cs.live key ∧ candidate.touches w :=
    fun w => habsorb ▸ Window.mem_absorbed hproper happart
  have htouch : candidate.touches m.merged := habsorb ▸ Window.touches_merged hc
  have hlen : (Window.settled (cs.live key) candidate).length < 2 ^ 64 :=
    (Window.apart_settled hproper happart hc).length_lt (Window.proper_settled hproper hc)
  -- without accumulators no live session is absorbed, so the merged window is new
  have hnone : found = none → cs.entryAt α ⟨key, m.merged⟩ = none := by
    intro hf
    have habs := h.eq_nil_of_accs hm (fun w hw => ((hmem w).1 hw).1) (hfound hf)
    rw [← Option.not_isSome_iff_eq_none, ← h.mem_live hm]
    intro hw
    have hw' := (hmem _).2 ⟨hw, htouch⟩
    simp [habs] at hw'
  refine ⟨.setSessions hm (.handOver _ _ _ _ h.tidy) _ hlen, ?_, fun s hs => ?_, fun key' => ?_⟩
  · rw [entryAt_setSessions]
    exact acc_handOver _ _ _ _ hnone
  · rw [entryAt_setSessions]
    exact entryAt_handOver_of_ne _ _ _ _ hs
  · rw [sessions_setSessions _ hlen, sessions_handOver]

end Join

/-- After a candidate has become `m`, a payload may go into the window that it grew to. -/
theorem Joined.grows [LawfulEncoding α] {key : Bytes} {candidate : Window} {m : Merger}
    {found : Option α} {cs' : Cells} (h : Joined p.merges key candidate m found cs cs') (acc : α) :
    p.Grows key m acc (cs.entryAt α) ((cs'.setEntry ⟨key, m.merged⟩
      (⟨acc, p.firesAt m.merged⟩ : Entry α)).entryAt α) := by
  intro s
  rw [entryAt_setEntry]
  by_cases hs : s = ⟨key, m.merged⟩
  · rw [if_pos hs.symm, if_pos hs]
  · rw [if_neg (Ne.symm hs), if_neg hs, h.others s hs]

/-- Where windows do not merge, a payload goes into the candidate's own entry. -/
theorem grows_setEntry [LawfulEncoding α] (p : Policy) (key : Bytes) (w : Window) (acc : α)
    (cs : Cells) : p.Grows key ⟨w, [w]⟩ acc (cs.entryAt α)
      ((cs.setEntry ⟨key, w⟩ (⟨acc, p.firesAt w⟩ : Entry α)).entryAt α) := by
  intro s
  rw [entryAt_setEntry]
  by_cases hs : s = ⟨key, w⟩
  · rw [if_pos hs.symm, if_pos hs]
  · have hs' : ¬ (s.key = key ∧ s.window ∈ [w]) := by
      rintro ⟨hk, hw⟩
      exact hs (by rw [← hk, ← List.mem_singleton.1 hw])
    rw [if_neg (Ne.symm hs), if_neg hs, if_neg hs']

end Cells

namespace Ledger

variable {κ ν α ω : Type} [Encoding κ] [Encoding α] {p : Policy} {cs : Cells}

theorem sessions_eq {key : Bytes} {ws : List Window} (h : cs.sessions key = .ok ws) :
    sessions key cs = .ok (ws, cs) := by
  rw [sessions, h]
  rfl

/-- Discarding a live slot and its session retires the slot. -/
theorem discard_eq (h : Cells.Sound κ α p cs) {s : Slot} (hs : (cs.entryAt α s).isSome) :
    (do
      discard s
      if p.merges then discardSession s : Ledger Unit) cs = .ok ((), cs.retire p.merges s) := by
  show (if p.merges then discardSession s else pure () : Ledger Unit) (cs.dropEntry s) = _
  unfold Cells.retire
  split
  · next hm =>
    have hread : (cs.dropEntry s).sessions s.key = .ok (cs.live s.key) := by
      rw [Cells.sessions_dropEntry, h.sessions hm]
    unfold discardSession
    rw [run_bind, sessions_eq hread]
    dsimp only
    rw [if_pos ((h.mem_live hm s.key s.window).2 hs)]
    rfl
  · rfl

/-! ### Taking in a payload -/

/-- Settle a candidate of a key as the policy says. -/
def settle (p : Policy) (g : Aggregate ν α ω) (key : Bytes) (candidate : Window) :
    Ledger SessionMerge :=
  if p.merges then mergeSession g p.firesAt key candidate else pure ⟨candidate, []⟩

/-- Settle a candidate and add a payload to its window. -/
def accumulate (p : Policy) (g : Aggregate ν α ω) (key : Bytes) (v : ν) (candidate : Window) :
    Ledger SessionMerge := do
  let m ← settle p g key candidate
  let _ ← add g ⟨key, m.window⟩ (p.firesAt m.window) v
  return m

end Ledger

/-- What a candidate grows to among the live windows of its key, and whose accumulators it takes
over. Where windows do not merge, that is its own. -/
def Policy.settle (p : Policy) (live : List Window) (candidate : Window) : Merger :=
  if p.merges then Window.absorb live candidate else ⟨candidate, [candidate]⟩

namespace Ledger

variable {κ ν α ω : Type} [Encoding κ] [Encoding α] {p : Policy} {cs : Cells}

theorem mergeSession_eq (g : Aggregate ν α ω) (firesAt : Window → Timestamp) {key : Bytes}
    {live : List Window} (hlive : cs.sessions key = .ok live) {candidate : Window} {m : Merger}
    (hm : Window.absorb live candidate = m) (hnodup : m.absorbed.Nodup) :
    mergeSession g firesAt key candidate cs =
      if m.isIdle then .ok (⟨m.merged, []⟩, cs)
      else match g.combine (cs.accs α key m.absorbed) with
        | .error reason => .error (.aggregation m.merged reason)
        | .ok found =>
          .ok (⟨m.merged, m.absorbed.filter (· ≠ m.merged)⟩,
            (cs.handOver firesAt key m found).setSessions key (Window.settled live candidate)) := by
  subst hm
  unfold mergeSession
  rw [run_bind, sessions_eq hlive]
  dsimp only
  by_cases hi : (Window.absorb live candidate).isIdle
  · rw [if_pos hi, if_pos hi]
    rfl
  · rw [if_neg hi, if_neg hi, run_bind, gather_eq g key _ hnodup none cs]
    unfold Aggregate.combine
    cases (cs.accs α key (Window.absorb live candidate).absorbed).foldlM g.join none with
    | error reason => rfl
    | ok found =>
      cases found with
      | none => rfl
      | some acc => rfl

theorem combine_accs_singleton (g : Aggregate ν α ω) (key : Bytes) (w : Window) (cs : Cells) :
    g.combine (cs.accs α key [w]) = .ok ((cs.entryAt α ⟨key, w⟩).map Entry.acc) := by
  cases h : cs.entryAt α ⟨key, w⟩ <;> simp [Cells.accs, h] <;> rfl

/-- Once a candidate is settled, the window it became holds what was merged. -/
theorem settle_spec [LawfulEncoding α] (h : Cells.Sound κ α p cs) (hm : p.merges)
    (g : Aggregate ν α ω) (key : Bytes) {candidate : Window} (hc : candidate.Proper) {m : Merger}
    (habsorb : Window.absorb (cs.live key) candidate = m) :
    match g.combine (cs.accs α key m.absorbed) with
    | .error reason => settle p g key candidate cs = .error (.aggregation m.merged reason)
    | .ok found => ∃ cs', settle p g key candidate cs =
          .ok (⟨m.merged, m.absorbed.filter (· ≠ m.merged)⟩, cs') ∧
        Cells.Joined p.merges key candidate m found cs cs' := by
  have hnodup : m.absorbed.Nodup :=
    habsorb ▸ (Window.ascending_absorbed (h.ascending_live hm key) candidate).nodup
  rw [settle, if_pos hm, mergeSession_eq g p.firesAt (h.sessions hm key) habsorb hnodup]
  by_cases hi : m.isIdle
  · have hjoined := h.joined_of_isIdle hm hc habsorb hi
    have habs : m.absorbed = [m.merged] := by simpa [Merger.isIdle] using hi
    rw [habs, combine_accs_singleton]
    simp only [if_pos hi]
    exact ⟨cs, by simp, hjoined⟩
  · simp only [if_neg hi]
    cases hfound : g.combine (cs.accs α key m.absorbed) with
    | error reason => rfl
    | ok found =>
      have hnil : found = none → cs.accs α key m.absorbed = [] := fun hf =>
        g.combine_eq_none (hf ▸ hfound)
      exact ⟨_, rfl, h.joined_handOver hm hc habsorb hnil⟩

/-- A payload goes into one entry together with what the candidate takes over. -/
theorem accumulate_spec [LawfulEncoding α] (h : Cells.Sound κ α p cs) {key : Bytes}
    (hkey : KeyOf κ key) (g : Aggregate ν α ω) (v : ν) {candidate : Window}
    (hc : p.merges → candidate.Proper) {m : Merger}
    (hsettle : p.settle (cs.live key) candidate = m) :
    match g.grow (cs.accs α key m.absorbed) v with
    | .error reason => ∃ w, accumulate p g key v candidate cs = .error (.aggregation w reason)
    | .ok acc => ∃ cs', accumulate p g key v candidate cs =
          .ok (⟨m.merged, m.absorbed.filter (· ≠ m.merged)⟩, cs') ∧
        Cells.Sound κ α p cs' ∧ p.Grows key m acc (cs.entryAt α) (cs'.entryAt α) := by
  unfold Policy.settle at hsettle
  simp only [accumulate, run_bind]
  by_cases hm : p.merges
  · rw [if_pos hm] at hsettle
    have hspec := settle_spec h hm g key (hc hm) hsettle
    cases hfound : g.combine (cs.accs α key m.absorbed) with
    | error reason =>
      rw [hfound] at hspec
      rw [Aggregate.grow_of_error hfound, hspec]
      exact ⟨m.merged, rfl⟩
    | ok found =>
      rw [hfound] at hspec
      obtain ⟨c₁, hrun, hjoined⟩ := hspec
      rw [Aggregate.grow_of_combine hfound, hrun]
      dsimp only
      rw [add_eq, hjoined.merged]
      cases hadd : g.add (found.getD g.create) v with
      | error reason => exact ⟨m.merged, rfl⟩
      | ok acc =>
        refine ⟨_, rfl, ?_, hjoined.grows acc⟩
        apply h.settle hm hkey (hc hm) hsettle (hjoined.tidy.setEntry _ _) (hjoined.grows acc)
        intro key'
        rw [Cells.sessions_setEntry, hjoined.sessions]
  · rw [if_neg hm] at hsettle
    subst hsettle
    rw [Aggregate.grow_of_combine (combine_accs_singleton g key candidate cs), settle, if_neg hm]
    simp only [run_pure]
    rw [add_eq]
    cases hadd : g.add (((cs.entryAt α ⟨key, candidate⟩).map Entry.acc).getD g.create) v with
    | error reason => exact ⟨candidate, rfl⟩
    | ok acc =>
      refine ⟨_, by simp, h.setEntry (s := ⟨key, candidate⟩) hm hkey acc, ?_⟩
      exact Cells.grows_setEntry p key candidate acc cs

end Ledger

end Tidemark
