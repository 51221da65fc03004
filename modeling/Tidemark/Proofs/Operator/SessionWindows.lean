import Tidemark.Proofs.Operator.Reached
import Tidemark.Proofs.Operator.Sessions

/-! Session windows against the sessions of the records. The windows that wait are the connected
components of the accepted records that were not emitted, each from its earliest record to the gap
behind its latest. A component is emitted as a whole once it is due. -/

namespace Tidemark

open Timestamp

/-! ### Windows of sessions -/

namespace Policy

variable {p : Policy} {gap : Int64}

/-- A record has one candidate, unless that leaves the time line. -/
theorem windowsAt_session (h : p.shape = .session gap) (t : Timestamp) :
    p.windowsAt t = if OnLine (t.toInt + gap.toInt) then
      some [(⟨t.toInt, t.toInt + gap.toInt⟩ : Frame).toWindow] else none := by
  have hhull : ((Shape.session gap).hull p.offset.toInt t.toInt).OnLine ↔
      OnLine (t.toInt + gap.toInt) := and_iff_right (onLine_toInt t)
  simp only [windowsAt, h, hhull, Shape.frames, List.map_singleton]

theorem gap_pos (h : p.shape = .session gap) (hp : p.flaw? = none) : 0 < gap.toInt := by
  have hspacious := spacious hp
  rw [h] at hspacious
  exact hspacious

theorem merges_session (h : p.shape = .session gap) : p.merges := by
  rw [merges, h]

/-- A window fires at its last instant, put off by the lateness, or at the end of the line. -/
theorem firesAt_toWindow (p : Policy) {f : Frame} (h : f.OnLine) (hf : f.start < f.stop) :
    p.firesAt f.toWindow = nearest (f.stop - 1 + p.lateness.toInt) := by
  have hstart := h.1.1
  have hstop := h.2
  have hline : first.toInt = -2 ^ 63 ∧ last.toInt = 2 ^ 63 - 1 := ⟨by decide, by decide⟩
  have hlast : f.toWindow.lastInstant.toInt = f.stop - 1 := by
    rw [Window.lastInstant, Int64.toInt_sub, Frame.stop_toWindow h, Int64.toInt_one]
    apply Int.bmod_eq_of_le
    · have := hstop.1
      omega
    · have := hstop.2
      omega
  rw [firesAt, shift, hlast]

end Policy

/-- The window of a record on its own. -/
def Arrival.candidate {κ ν : Type} (gap : Int) (a : Arrival κ ν) : Window :=
  (⟨a.time.toInt, a.time.toInt + gap⟩ : Frame).toWindow

namespace Session

variable {κ ν : Type} {gap : Int} {s r : Session κ ν} {a : Arrival κ ν}

def window (gap : Int) (s : Session κ ν) : Window := (s.frame gap).toWindow

/-- Every record of the session can have a window of its own. -/
def Fits (gap : Int) (s : Session κ ν) : Prop := ∀ a ∈ s.members, OnLine (a.time.toInt + gap)

theorem Fits.onLine (h : s.Fits gap) : (s.frame gap).OnLine := by
  obtain ⟨a, _, hfrom⟩ := s.exists_earliest
  obtain ⟨b, hb, hto⟩ := s.exists_latest
  rw [Frame.OnLine, frame, ← hfrom, ← hto]
  exact ⟨onLine_toInt a.time, h b hb⟩

theorem Fits.start_window (h : s.Fits gap) : (s.window gap).start.toInt = s.earliest :=
  Frame.start_toWindow h.onLine

theorem Fits.stop_window (h : s.Fits gap) : (s.window gap).stop.toInt = s.latest + gap :=
  Frame.stop_toWindow h.onLine

theorem earliest_le_latest (s : Session κ ν) : s.earliest ≤ s.latest := by
  have hfrom := earliest_le (s := s) (a := s.first) (by simp [members])
  have hto := le_latest (s := s) (a := s.first) (by simp [members])
  omega

theorem Fits.firesAt_window (h : s.Fits gap) (hgap : 0 < gap) (p : Policy) :
    p.firesAt (s.window gap) = s.dueAt gap p.lateness.toInt := by
  have hle := s.earliest_le_latest
  exact p.firesAt_toWindow h.onLine (by simp only [frame]; omega)

theorem start_candidate (h : OnLine (a.time.toInt + gap)) :
    (a.candidate gap).start.toInt = a.time.toInt :=
  Frame.start_toWindow ⟨onLine_toInt a.time, h⟩

theorem stop_candidate (h : OnLine (a.time.toInt + gap)) :
    (a.candidate gap).stop.toInt = a.time.toInt + gap :=
  Frame.stop_toWindow ⟨onLine_toInt a.time, h⟩

/-- A candidate touches the windows of those sessions that its record is linked to. -/
theorem Fits.touches_iff (h : s.Fits gap) (hs : s.Connected gap) (hgap : 0 ≤ gap)
    (hkey : a.key = s.key) (ha : OnLine (a.time.toInt + gap)) :
    (a.candidate gap).touches (s.window gap) ↔ s.Near gap a := by
  rw [Window.touches_iff, hs.near_iff hgap, start_candidate ha, stop_candidate ha, h.start_window,
    h.stop_window]
  constructor
  · rintro ⟨hto, hfrom⟩
    exact ⟨hkey, hfrom, hto⟩
  · rintro ⟨_, hfrom, hto⟩
    exact ⟨hto, hfrom⟩

section Join

variable {near : List (Session κ ν)} (ha : OnLine (a.time.toInt + gap))
  (hnear : ∀ s ∈ near, s.Fits gap)

include ha hnear

theorem fits_join : (join a near).Fits gap := by
  intro b hb
  rcases mem_join.1 hb with rfl | ⟨s, hs, hb⟩
  · exact ha
  · exact hnear s hs b hb

variable {ws : List Window} (hws : ∀ w, w ∈ ws ↔ ∃ s ∈ near, s.window gap = w)

include hws

theorem start_cover_join :
    (ws.foldl Window.cover (a.candidate gap)).start.toInt = (join a near).earliest := by
  apply Int.le_antisymm
  · obtain ⟨b, hb, hbt⟩ := (join a near).exists_earliest
    rcases mem_join.1 hb with rfl | ⟨s, hs, hb⟩
    · have hle := Window.start_foldl_cover_le ws (b.candidate gap) (b.candidate gap) (by simp)
      rw [start_candidate ha] at hle
      omega
    · have hle := Window.start_foldl_cover_le ws (a.candidate gap) (s.window gap)
        (List.mem_cons_of_mem _ ((hws _).2 ⟨s, hs, rfl⟩))
      rw [(hnear s hs).start_window] at hle
      have hfrom := earliest_le hb
      omega
  · obtain ⟨w, hw, hwt⟩ := Window.start_foldl_cover ws (a.candidate gap)
    rw [hwt]
    rcases List.mem_cons.1 hw with rfl | hw
    · rw [start_candidate ha]
      exact earliest_le (mem_join.2 (.inl rfl))
    · obtain ⟨s, hs, rfl⟩ := (hws w).1 hw
      obtain ⟨b, hb, hbt⟩ := s.exists_earliest
      rw [(hnear s hs).start_window, ← hbt]
      exact earliest_le (mem_join.2 (.inr ⟨s, hs, hb⟩))

theorem stop_cover_join :
    (ws.foldl Window.cover (a.candidate gap)).stop.toInt = (join a near).latest + gap := by
  apply Int.le_antisymm
  · obtain ⟨w, hw, hwt⟩ := Window.stop_foldl_cover ws (a.candidate gap)
    rw [hwt]
    rcases List.mem_cons.1 hw with rfl | hw
    · have hto : a.time.toInt ≤ (join a near).latest := le_latest (mem_join.2 (.inl rfl))
      rw [stop_candidate ha]
      omega
    · obtain ⟨s, hs, rfl⟩ := (hws w).1 hw
      obtain ⟨b, hb, hbt⟩ := s.exists_latest
      have hto : b.time.toInt ≤ (join a near).latest := le_latest (mem_join.2 (.inr ⟨s, hs, hb⟩))
      rw [(hnear s hs).stop_window]
      omega
  · obtain ⟨b, hb, hbt⟩ := (join a near).exists_latest
    rcases mem_join.1 hb with rfl | ⟨s, hs, hb⟩
    · have hle := Window.le_stop_foldl_cover ws (b.candidate gap) (b.candidate gap) (by simp)
      rw [stop_candidate ha] at hle
      omega
    · have hle := Window.le_stop_foldl_cover ws (a.candidate gap) (s.window gap)
        (List.mem_cons_of_mem _ ((hws _).2 ⟨s, hs, rfl⟩))
      rw [(hnear s hs).stop_window] at hle
      have hto := le_latest hb
      omega

/-- The window of a record that joins sessions covers its candidate and their windows. -/
theorem window_join : ws.foldl Window.cover (a.candidate gap) = (join a near).window gap := by
  have hjoin := fits_join ha hnear
  apply Window.eq_of_toInt
  · rw [start_cover_join ha hnear hws, hjoin.start_window]
  · rw [stop_cover_join ha hnear hws, hjoin.stop_window]

end Join

/-! ### Slots of sessions -/

variable [Encoding κ]

def slot (gap : Int) (s : Session κ ν) : Slot := ⟨encode s.key, s.window gap⟩

/-- Connected components that have windows and keys to be told apart by. -/
structure Placed (gap : Int) (l : List (Session κ ν)) : Prop extends Components gap l where
  fits : ∀ s ∈ l, s.Fits gap
  faithful : ∀ s ∈ l, Encoding.Faithful s.key

theorem Placed.sublist {l l' : List (Session κ ν)} (h : Placed gap l) (hl : l'.Sublist l) :
    Placed gap l' :=
  ⟨h.toComponents.sublist hl, fun s hs => h.fits s (hl.subset hs),
    fun s hs => h.faithful s (hl.subset hs)⟩

/-- Each session has a slot of its own. -/
theorem Placed.eq_of_slot {l : List (Session κ ν)} (h : Placed gap l) (hgap : 0 ≤ gap)
    (hs : s ∈ l) (hr : r ∈ l) (hslot : s.slot gap = r.slot gap) : s = r := by
  obtain ⟨hbytes, hwindow⟩ := Slot.mk.inj hslot
  have hkey := (h.faithful s hs).encode_injective (h.faithful r hr) hbytes
  by_contra hne
  have hapart := h.apart.forall hs hr hne
  apply (h.connected s hs).earliest_ne (h.connected r hr) hgap hkey hapart
  rw [← (h.fits s hs).start_window, ← (h.fits r hr).start_window, hwindow]

end Session

namespace Sessions

variable {κ ν : Type} [DecidableEq κ] [Encoding κ] {gap : Int} {l : Sessions κ ν} {a : Arrival κ ν}

omit [DecidableEq κ] in
theorem placed_start : Session.Placed gap ({} : Sessions κ ν).waiting :=
  ⟨⟨by simp, .nil⟩, by simp, by simp⟩

theorem placed_accept (h : Session.Placed gap l.waiting) (hkey : Encoding.Faithful a.key)
    (ha : OnLine (a.time.toInt + gap)) : Session.Placed gap (l.accept gap a).waiting := by
  refine ⟨components_accept h.toComponents a, fun s hs => ?_, fun s hs => ?_⟩
  · rcases mem_waiting_accept.1 hs with ⟨hs, _⟩ | rfl
    · exact h.fits s hs
    · exact Session.fits_join ha fun r hr => h.fits r (mem_near.1 hr).1
  · rcases mem_waiting_accept.1 hs with ⟨hs, _⟩ | rfl
    · exact h.faithful s hs
    · exact hkey

end Sessions

/-! ### Operators of session windows -/

namespace Job

open Operator

variable {κ ν α ω : Type} [Encoding κ] [Encoding α] [DecidableEq κ]

/-- The result of a session. -/
def emission (job : Job κ ν α ω) (gap : Int) (s : Session κ ν) : Except String (Emission κ ω) :=
  (job.aggregate.value s.payloads).map fun value => ⟨s.key, s.window gap, value⟩

/-- Progress that finds a session due. -/
def dueAt (job : Job κ ν α ω) (gap : Int) (s : Session κ ν) : Timestamp :=
  s.dueAt gap job.policy.val.lateness.toInt

/-- An operator holds the sessions that wait and has emitted those that were sent off. -/
structure Attends (job : Job κ ν α ω) (gap : Int) (l : Sessions κ ν) (o : Operator κ α ω) :
    Prop where
  running : o.status = .running
  progress : o.progress = l.progress
  /-- An entry with the fold of the payloads waits for each session, and for nothing else. -/
  pending : ∀ s e, o.entryAt s = some e ↔ ∃ r ∈ l.waiting, s = r.slot gap ∧
    e.fireAt = job.dueAt gap r ∧ job.aggregate.fold r.payloads = .ok e.acc
  early : ∀ r ∈ l.waiting, o.progress < job.dueAt gap r
  emitted : (l.sent.map (job.emission gap)).Perm (o.collector.items.map .ok)

/-- An operator that was fed from the start on, with what it holds. -/
structure Minds (job : Job κ ν α ω) (gap : Int) (l : Sessions κ ν) (o : Operator κ α ω) : Prop
    extends job.Attends gap l o where
  sound : o.Sound job.policy.val
  admission : o.collector.admission = .always
  placed : Session.Placed gap l.waiting

variable {job : Job κ ν α ω} {gap : Int} {l : Sessions κ ν} {o : Operator κ α ω} {a : Arrival κ ν}

omit [DecidableEq κ] in
theorem Minds.exists_entry (h : job.Minds gap l o) (ht : job.aggregate.Total) {r : Session κ ν}
    (hr : r ∈ l.waiting) : ∃ acc, job.aggregate.fold r.payloads = .ok acc ∧
      o.entryAt (r.slot gap) = some ⟨acc, job.dueAt gap r⟩ := by
  obtain ⟨acc, hacc⟩ := ht.fold r.payloads
  exact ⟨acc, hacc, (h.pending _ _).2 ⟨r, hr, rfl, rfl, hacc⟩⟩

omit [DecidableEq κ] in
theorem Minds.mem_live (h : job.Minds gap l o) (hm : job.policy.val.merges)
    (ht : job.aggregate.Total) {key : Bytes} {w : Window} :
    w ∈ o.table.contents.live key ↔ ∃ r ∈ l.waiting, r.slot gap = ⟨key, w⟩ := by
  rw [h.sound.cells.mem_live hm, ← entryAt, Option.isSome_iff_exists]
  constructor
  · rintro ⟨e, he⟩
    obtain ⟨r, hr, hslot, _⟩ := (h.pending _ e).1 he
    exact ⟨r, hr, hslot.symm⟩
  · rintro ⟨r, hr, hslot⟩
    obtain ⟨acc, _, hentry⟩ := h.exists_entry ht hr
    rw [hslot] at hentry
    exact ⟨_, hentry⟩

/-! ### Taking in a record -/

/-- What a candidate makes of the live windows of its key. -/
def merger (o : Operator κ α ω) (gap : Int) (a : Arrival κ ν) : Merger :=
  Window.absorb (o.table.contents.live (encode a.key)) (a.candidate gap)

section Accept

variable (h : job.Minds gap l o) (hm : job.policy.val.merges) (hgap : 0 < gap)
  (hkey : Encoding.Faithful a.key) (ha : OnLine (a.time.toInt + gap))

include h hm hgap hkey ha

/-- A candidate absorbs the windows of the sessions that its record is linked to. -/
theorem Minds.mem_absorbed (ht : job.aggregate.Total) {w : Window} :
    w ∈ (merger o gap a).absorbed ↔ ∃ r ∈ l.near gap a, r.window gap = w := by
  rw [merger, Window.mem_absorbed (h.sound.cells.proper_live hm _) (h.sound.cells.apart hm _),
    h.mem_live hm ht]
  constructor
  · rintro ⟨⟨r, hr, hslot⟩, htouch⟩
    obtain ⟨hbytes, rfl⟩ := Slot.mk.inj hslot
    have hk := hkey.encode_injective (h.placed.faithful r hr) hbytes.symm
    have hnear := ((h.placed.fits r hr).touches_iff (h.placed.connected r hr) (Int.le_of_lt hgap)
      hk ha).1 htouch
    exact ⟨r, Sessions.mem_near.2 ⟨hr, hnear⟩, rfl⟩
  · rintro ⟨r, hr, rfl⟩
    obtain ⟨hr, hnear⟩ := Sessions.mem_near.1 hr
    have hconnected := h.placed.connected r hr
    have hk := hconnected.key_of_near hnear
    exact ⟨⟨r, hr, by rw [Session.slot, hk]⟩,
      ((h.placed.fits r hr).touches_iff hconnected (Int.le_of_lt hgap) hk.symm ha).2 hnear⟩

theorem Minds.absorbed_iff (ht : job.aggregate.Total) (s : Slot) :
    s.key = encode a.key ∧ s.window ∈ (merger o gap a).absorbed ↔
      ∃ r ∈ l.near gap a, r.slot gap = s := by
  rw [h.mem_absorbed hm hgap hkey ha ht]
  have hk : ∀ r ∈ l.near gap a, r.key = a.key := fun r hr =>
    (h.placed.connected r (Sessions.mem_near.1 hr).1).key_of_near (Sessions.mem_near.1 hr).2
  constructor
  · rintro ⟨hbytes, r, hr, hwindow⟩
    exact ⟨r, hr, by rw [Session.slot, hk r hr, ← hbytes, hwindow]⟩
  · rintro ⟨r, hr, rfl⟩
    exact ⟨by rw [Session.slot, hk r hr], r, hr, rfl⟩

theorem Minds.merged_eq (ht : job.aggregate.Total) :
    (merger o gap a).merged = (l.joined gap a).window gap := by
  have hmem := fun w => h.mem_absorbed hm hgap hkey ha ht (w := w)
  rw [merger, Window.absorb_of_apart (h.sound.cells.proper_live hm _) (h.sound.cells.apart hm _)]
    at hmem ⊢
  exact Session.window_join ha (fun r hr => h.placed.fits r (Sessions.mem_near.1 hr).1) hmem

theorem Minds.absorbed_perm (ht : job.aggregate.Total) :
    (merger o gap a).absorbed.Perm ((l.near gap a).map (Session.window gap)) := by
  have habsorbed : (merger o gap a).absorbed.Nodup :=
    (Window.ascending_absorbed (h.sound.cells.ascending_live hm _) _).nodup
  have hnear : (l.near gap a).Nodup :=
    (h.placed.nodup (Int.le_of_lt hgap)).sublist List.filter_sublist
  refine (List.perm_ext_iff_of_nodup habsorbed (hnear.map_on fun r hr s hs hrs => ?_)).2 fun w => ?_
  · obtain ⟨hr, hnr⟩ := Sessions.mem_near.1 hr
    obtain ⟨hs, hns⟩ := Sessions.mem_near.1 hs
    apply h.placed.eq_of_slot (Int.le_of_lt hgap) hr hs
    rw [Session.slot, Session.slot, (h.placed.connected r hr).key_of_near hnr,
      (h.placed.connected s hs).key_of_near hns, hrs]
  · rw [List.mem_map]
    exact h.mem_absorbed hm hgap hkey ha ht

/-- The accumulators of the absorbed windows and the payload give the fold of the joined session. -/
theorem Minds.grow_absorbed (hg : job.aggregate.Monoidal) :
    job.aggregate.grow (o.table.contents.accs α (encode a.key) (merger o gap a).absorbed)
      a.payload = job.aggregate.fold (l.joined gap a).payloads := by
  obtain ⟨_, single, hmul⟩ := hg.exists_multiplies
  have haccs : (o.table.contents.accs α (encode a.key) (merger o gap a).absorbed).Perm
      ((l.near gap a).map fun r => (r.payloads.map single).prod) := by
    refine ((h.absorbed_perm hm hgap hkey ha hg.toTotal).filterMap _).trans (.of_eq ?_)
    rw [List.filterMap_map, ← List.filterMap_eq_map]
    refine List.filterMap_congr fun r hr => ?_
    obtain ⟨hr, hnear⟩ := Sessions.mem_near.1 hr
    obtain ⟨acc, hacc, hentry⟩ := h.exists_entry hg.toTotal hr
    rw [hmul.fold_eq] at hacc
    rw [Session.slot, (h.placed.connected r hr).key_of_near hnear] at hentry
    show (o.entryAt _).map Entry.acc = _
    rw [hentry, Option.map_some, Function.comp, Except.ok.inj hacc]
  rw [hmul.grow_eq, hmul.fold_eq, haccs.prod_eq, Sessions.joined, Session.payloads_join,
    List.map_cons, List.prod_cons, mul_comm, List.map_flatMap, List.flatMap_def, List.prod_flatten,
    List.map_map]
  rfl

/-- The entry of the joined session stands in for those of the sessions that it took in. -/
theorem Minds.pending_accept (hg : job.aggregate.Monoidal) {acc : α}
    (hacc : job.aggregate.fold (l.joined gap a).payloads = .ok acc) {o' : Operator κ α ω}
    (hentry : ∀ s, o'.entryAt s =
      if s = (l.joined gap a).slot gap then some ⟨acc, job.dueAt gap (l.joined gap a)⟩
      else if s.key = encode a.key ∧ s.window ∈ (merger o gap a).absorbed then none
      else o.entryAt s) (s : Slot) (e : Entry α) :
    o'.entryAt s = some e ↔ ∃ r ∈ (l.accept gap a).waiting, s = r.slot gap ∧
      e.fireAt = job.dueAt gap r ∧ job.aggregate.fold r.payloads = .ok e.acc := by
  have hplaced := Sessions.placed_accept h.placed hkey ha
  have hjoined : l.joined gap a ∈ (l.accept gap a).waiting :=
    Sessions.mem_waiting_accept.2 (.inr rfl)
  rw [hentry]
  by_cases hs : s = (l.joined gap a).slot gap
  · rw [if_pos hs]
    constructor
    · intro he
      obtain rfl := Option.some.inj he
      exact ⟨_, hjoined, hs, rfl, hacc⟩
    · rintro ⟨r, hr, hslot, hfireAt, hfold⟩
      have hrj := hplaced.eq_of_slot (Int.le_of_lt hgap) hr hjoined (hslot.symm.trans hs)
      rw [hrj] at hfireAt hfold
      rw [Except.ok.inj (hacc.symm.trans hfold), ← hfireAt]
  · rw [if_neg hs]
    by_cases hgone : s.key = encode a.key ∧ s.window ∈ (merger o gap a).absorbed
    · rw [if_pos hgone]
      obtain ⟨n, hn, rfl⟩ := (h.absorbed_iff hm hgap hkey ha hg.toTotal s).1 hgone
      obtain ⟨hn, hnear⟩ := Sessions.mem_near.1 hn
      apply iff_of_false (by simp)
      rintro ⟨r, hr, hslot, _⟩
      rcases Sessions.mem_waiting_accept.1 hr with ⟨hr, hfar⟩ | rfl
      · exact hfar (h.placed.eq_of_slot (Int.le_of_lt hgap) hn hr hslot ▸ hnear)
      · exact hs hslot
    · rw [if_neg hgone, h.pending]
      constructor
      · rintro ⟨r, hr, rfl, he⟩
        have hfar : ¬ r.Near gap a := fun hnear =>
          hgone ((h.absorbed_iff hm hgap hkey ha hg.toTotal _).2
            ⟨r, Sessions.mem_near.2 ⟨hr, hnear⟩, rfl⟩)
        exact ⟨r, Sessions.mem_waiting_accept.2 (.inl ⟨hr, hfar⟩), rfl, he⟩
      · rintro ⟨r, hr, rfl, he⟩
        rcases Sessions.mem_waiting_accept.1 hr with ⟨hr, _⟩ | rfl
        · exact ⟨r, hr, rfl, he⟩
        · exact absurd rfl hs

/-- A payload that was taken in belongs to the joined session. -/
theorem Minds.accept (hg : job.aggregate.Monoidal)
    (hearly : o.progress < nearest (a.time.toInt + gap - 1 + job.policy.val.lateness.toInt))
    {acc : α} (hacc : job.aggregate.grow (o.table.contents.accs α (encode a.key)
      (merger o gap a).absorbed) a.payload = .ok acc)
    {o' : Operator κ α ω} (hsound : o'.Sound job.policy.val) (hsame : o.Undisturbed o')
    (hgrows : job.policy.val.Grows (encode a.key) (merger o gap a) acc o.entryAt o'.entryAt) :
    job.Minds gap (l.accept gap a) o' := by
  have hplaced := Sessions.placed_accept h.placed hkey ha
  have hfits : (l.joined gap a).Fits gap :=
    hplaced.fits _ (Sessions.mem_waiting_accept.2 (.inr rfl))
  rw [h.grow_absorbed hm hgap hkey ha hg] at hacc
  have hentry := fun s => hgrows s
  rw [h.merged_eq hm hgap hkey ha hg.toTotal, hfits.firesAt_window hgap] at hentry
  refine ⟨⟨hsame.status.trans h.running, hsame.progress.trans h.progress,
    h.pending_accept hm hgap hkey ha hg hacc hentry, fun r hr => ?_, ?_⟩, hsound, ?_, hplaced⟩
  · rw [hsame.progress]
    rcases Sessions.mem_waiting_accept.1 hr with ⟨hr, _⟩ | rfl
    · exact h.early r hr
    · -- the joined session comes due no earlier than the record on its own
      have hlatest : a.time.toInt ≤ (l.joined gap a).latest :=
        Session.le_latest (Session.mem_join.2 (.inl rfl))
      exact Int64.lt_of_lt_of_le hearly (nearest_mono (by omega))
  · rw [hsame.collector]
    exact h.emitted
  · rw [hsame.collector]
    exact h.admission

end Accept

/-! ### Sending sessions off -/

omit [Encoding κ] [Encoding α] [DecidableEq κ] in
theorem exists_emission (ht : job.aggregate.Total) (gap : Int) (r : Session κ ν) :
    ∃ value, job.emission gap r = .ok ⟨r.key, r.window gap, value⟩ := by
  obtain ⟨value, hvalue⟩ := ht.value r.payloads
  exact ⟨value, by rw [emission, hvalue]; rfl⟩

section Reach

variable (h : job.Minds gap l o) (hgap : 0 ≤ gap)

include h

omit [DecidableEq κ] in
/-- What an advance emits are the results of the sessions that are due. -/
theorem Minds.mem_emitted {p : Timestamp} {e : Emission κ ω} :
    (∃ x, o.entryAt ⟨encode e.key, e.window⟩ = some x ∧ x.fireAt ≤ p ∧
      job.aggregate.Releases ⟨encode e.key, e.window⟩ x e) ↔
    .ok e ∈ (l.waiting.filter (job.dueAt gap · ≤ p)).map (job.emission gap) := by
  rw [List.mem_map]
  constructor
  · rintro ⟨x, hx, hle, hrel⟩
    obtain ⟨r, hr, hslot, hfireAt, hfold⟩ := (h.pending _ x).1 hx
    obtain ⟨hbytes, hwindow⟩ := Slot.mk.inj hslot
    have hkey := hrel.faithful.encode_injective (h.placed.faithful r hr) hbytes
    refine ⟨r, List.mem_filter.2 ⟨hr, decide_eq_true (hfireAt ▸ hle)⟩, ?_⟩
    rw [emission, Aggregate.value_eq_ok.2 ⟨x.acc, hfold, hrel.result⟩, ← hkey, ← hwindow]
    rfl
  · rintro ⟨r, hr, he⟩
    obtain ⟨hr, hdue⟩ := List.mem_filter.1 hr
    unfold emission at he
    cases hvalue : job.aggregate.value r.payloads with
    | error reason =>
      rw [hvalue] at he
      cases he
    | ok value =>
      rw [hvalue] at he
      obtain rfl := Except.ok.inj he
      obtain ⟨acc, hfold, hresult⟩ := Aggregate.value_eq_ok.1 hvalue
      exact ⟨⟨acc, job.dueAt gap r⟩, (h.pending _ _).2 ⟨r, hr, rfl, rfl, hfold⟩,
        of_decide_eq_true hdue, h.placed.faithful r hr, rfl, hresult⟩

include hgap

omit [DecidableEq κ] in
/-- An advance emits one result for each session that is due, and no other. -/
theorem Minds.emitted_perm (ht : job.aggregate.Total) {p : Timestamp} {out : List (Emission κ ω)}
    (hnodup : (out.map fun e => (e.key, e.window)).Nodup)
    (hout : ∀ e, e ∈ out ↔ ∃ x, o.entryAt ⟨encode e.key, e.window⟩ = some x ∧ x.fireAt ≤ p ∧
      job.aggregate.Releases ⟨encode e.key, e.window⟩ x e) :
    ((l.waiting.filter (job.dueAt gap · ≤ p)).map (job.emission gap)).Perm (out.map .ok) := by
  have hdue := (h.placed.nodup hgap).filter (job.dueAt gap · ≤ p)
  have honce : out.Nodup := .of_map (fun e => (e.key, e.window)) hnodup
  have hok : Function.Injective (Except.ok : Emission κ ω → Except String (Emission κ ω)) :=
    fun _ _ he => Except.ok.inj he
  refine (List.perm_ext_iff_of_nodup (hdue.map_on fun r hr s hs he => ?_) (honce.map hok)).2
    fun x => ?_
  · obtain ⟨_, hvr⟩ := job.exists_emission ht gap r
    obtain ⟨_, hvs⟩ := job.exists_emission ht gap s
    rw [hvr, hvs, Except.ok.injEq, Emission.mk.injEq] at he
    apply h.placed.eq_of_slot hgap (List.mem_filter.1 hr).1 (List.mem_filter.1 hs).1
    rw [Session.slot, Session.slot, he.1, he.2.1]
  · cases x with
    | ok e => rw [← h.mem_emitted, ← hout, List.mem_map_of_injective hok]
    | error reason =>
      refine iff_of_false (fun hx => ?_) (by simp)
      obtain ⟨r, _, he⟩ := List.mem_map.1 hx
      obtain ⟨_, hvr⟩ := job.exists_emission ht gap r
      rw [hvr] at he
      cases he

omit [DecidableEq κ] in
/-- Sessions that are due are emitted, and the others stay. -/
theorem Minds.reach (ht : job.aggregate.Total) {p : Timestamp} (hp : o.progress < p)
    {o' : Operator κ α ω} (hsound : o'.Sound job.policy.val) (hr : o.Reaches job.aggregate p o') :
    job.Minds gap (l.reach gap job.policy.val.lateness.toInt p) o' ∧
    ∃ out, o'.collector.items = o.collector.items ++ out ∧
      ((l.waiting.filter (job.dueAt gap · ≤ p)).map (job.emission gap)).Perm (out.map .ok) := by
  obtain ⟨out, hitems, hnodup, hout⟩ := hr.exists_emitted h.sound hp
  have hemitted := h.emitted_perm hgap ht hnodup hout
  have hmem : ∀ r, r ∈ (l.reach gap job.policy.val.lateness.toInt p).waiting ↔
      r ∈ l.waiting ∧ p < job.dueAt gap r := fun r => Sessions.mem_waiting_reach
  refine ⟨⟨⟨hr.status.trans h.running, hr.progress, fun s e => ?_, fun r hr' => ?_, ?_⟩, hsound,
    hr.admission h.admission, h.placed.sublist List.filter_sublist⟩, out, hitems, hemitted⟩
  · rw [hr.entry, Option.filter_eq_some_iff, h.pending, decide_eq_true_eq]
    constructor
    · rintro ⟨⟨r, hr', hslot, hfireAt, hfold⟩, hlt⟩
      exact ⟨r, (hmem r).2 ⟨hr', hfireAt ▸ hlt⟩, hslot, hfireAt, hfold⟩
    · rintro ⟨r, hr', hslot, hfireAt, hfold⟩
      obtain ⟨hr', hlt⟩ := (hmem r).1 hr'
      exact ⟨⟨r, hr', hslot, hfireAt, hfold⟩, hfireAt ▸ hlt⟩
  · rw [hr.progress]
    exact ((hmem r).1 hr').2
  · rw [hitems, List.map_append, Sessions.reach, List.map_append]
    exact h.emitted.append hemitted

end Reach

omit [DecidableEq κ] in
theorem Minds.of_drops (h : job.Minds gap l o) (drops : DropMeter) :
    job.Minds gap l { o with drops } :=
  ⟨⟨h.running, h.progress, h.pending, h.early, h.emitted⟩, h.sound.of_eq rfl fun _ => rfl,
    h.admission, h.placed⟩

omit [DecidableEq κ] in
/-- Old progress finds nothing due. -/
theorem Minds.not_due (h : job.Minds gap l o) {p : Timestamp} (hp : p ≤ o.progress) :
    l.waiting.filter (job.dueAt gap · ≤ p) = [] := by
  rw [List.filter_eq_nil_iff]
  intro r hr hdue
  have hle := Int64.le_trans (of_decide_eq_true hdue) hp
  exact Int64.not_lt.2 hle (h.early r hr)

omit [DecidableEq κ] in
theorem Minds.reach_self (h : job.Minds gap l o) :
    l.reach gap job.policy.val.lateness.toInt l.progress = l := by
  have hstay : l.waiting.filter (l.progress < job.dueAt gap ·) = l.waiting :=
    List.filter_eq_self.2 fun r hr => decide_eq_true (h.progress ▸ h.early r hr)
  have hgone := h.not_due (p := l.progress) (h.progress ▸ Int64.le_refl _)
  unfold dueAt at hstay hgone
  rw [Sessions.reach, hstay, hgone, List.append_nil]

/-! ### Runs -/

section Take

variable {gap : Int64} (h : job.Minds gap.toInt l o)
  (hshape : job.policy.val.shape = .session gap) (hdomain : job.settings.val.domain = .event)

include h hshape hdomain

omit [DecidableEq κ] in
/-- A record whose candidate leaves the time line is refused and changes nothing. -/
theorem Minds.feed_refused (now : Timestamp) (key : κ) {t : Timestamp} (v : ν)
    (ht : ¬ OnLine (t.toInt + gap.toInt)) : job.feed now key t v o = .error (.offTheLine t) o := by
  have hwindows := Policy.windowsAt_session hshape t
  rw [if_neg ht, ← stamp_event hdomain now t] at hwindows
  rw [job.feed_offTheLine h.running hwindows, stamp_event hdomain]

omit [DecidableEq κ] in
/-- A record whose candidate is due is dropped. -/
theorem Minds.feed_dropped (now : Timestamp) (key : κ) {t : Timestamp} (v : ν)
    (ht : OnLine (t.toInt + gap.toInt))
    (hdue : nearest (t.toInt + gap.toInt - 1 + job.policy.val.lateness.toInt) ≤ o.progress) :
    job.feed now key t v o = .ok .dropped { o with drops := o.drops.mark now } := by
  have hgap := Policy.gap_pos hshape job.policy.property
  have hwindows := Policy.windowsAt_session hshape t
  rw [if_pos ht, ← stamp_event hdomain now t] at hwindows
  apply job.feed_late h.running hwindows
  rw [stamp_event hdomain, liveAt_eq_nil]
  intro w hw
  rw [List.mem_singleton.1 hw,
    Policy.firesAt_toWindow _ ⟨onLine_toInt t, ht⟩ (by dsimp only; omega)]
  exact hdue

/-- An accepted record joins the sessions that it is linked to. -/
theorem Minds.feed_accepted [LawfulEncoding α] (hg : job.aggregate.Monoidal) (now : Timestamp)
    (a : Arrival κ ν) (hkey : Encoding.Faithful a.key) (ha : OnLine (a.time.toInt + gap.toInt))
    (hearly : o.progress < nearest (a.time.toInt + gap.toInt - 1 + job.policy.val.lateness.toInt)) :
    ∃ o', job.feed now a.key a.time a.payload o = .ok .accepted o' ∧
      job.Minds gap.toInt (l.accept gap.toInt a) o' ∧ o'.drops = o.drops := by
  have hgap := Policy.gap_pos hshape job.policy.property
  have hm := Policy.merges_session hshape
  have hwindows : job.policy.val.windowsAt (job.stamp now a.time) =
      some [a.candidate gap.toInt] := by
    rw [stamp_event hdomain, Policy.windowsAt_session hshape, if_pos ha]
    rfl
  have hfires : job.policy.val.firesAt (a.candidate gap.toInt) =
      nearest (a.time.toInt + gap.toInt - 1 + job.policy.val.lateness.toInt) :=
    Policy.firesAt_toWindow _ ⟨onLine_toInt a.time, ha⟩ (by dsimp only; omega)
  have hproper : (a.candidate gap.toInt).Proper := by
    rw [Window.proper_iff, Session.start_candidate ha, Session.stop_candidate ha]
    omega
  have hlive : job.liveAt o [a.candidate gap.toInt] = [a.candidate gap.toInt] := by
    rw [liveAt, List.filter_eq_self]
    intro w hw
    rw [List.mem_singleton.1 hw, Policy.isLate, hfires]
    simpa using hearly
  have hsettle : job.policy.val.settle (o.table.contents.live (encode a.key))
      (a.candidate gap.toInt) = merger o gap.toInt a := by
    rw [Policy.settle, if_pos hm, merger]
  have hcause : ¬ job.aggregate.Total → False := fun hn => hn hg.toTotal
  obtain ⟨⟨⟩, o', hrun, hsound, hsame, acc, hacc, hgrows⟩ := (job.ensures_accumulate_sound h.sound
    ⟨a.key, hkey, rfl⟩ a.payload (fun _ => hproper) hsettle hcause).exists_ok id
  have hloop : [a.candidate gap.toInt].forM (job.accumulate (encode a.key) a.payload) o =
      .ok () o' := by
    show (job.accumulate (encode a.key) a.payload (a.candidate gap.toInt) >>=
      fun _ => pure ()) o = _
    rw [Command.run_bind, hrun]
    rfl
  refine ⟨o', ?_, h.accept hm hgap hkey ha hg hearly hacc hsound hsame hgrows, by rw [hsame.drops]⟩
  rw [job.feed_live h.running hwindows (by simp [hlive]), hlive, hloop]

omit hdomain in
/-- Announced progress sends off the sessions that are due. -/
theorem Minds.announced [LawfulEncoding α] (hg : job.aggregate.Monoidal) {i : Input κ ν}
    (hi : ∀ q, i.arrival? q = none) {p : Timestamp}
    (hprogress : ∀ q, i.progress q = (Input.advance p : Input κ ν).progress q)
    (hafter : (job.take i).after o = (job.advance p).after o) :
    job.Minds gap.toInt (l.take gap.toInt job.policy.val.lateness.toInt i)
      ((job.take i).after o) ∧ ((job.take i).after o).drops = o.drops := by
  have hgap := Policy.gap_pos hshape job.policy.property
  obtain ⟨o', hadvance, ho'⟩ := job.exists_advance hg.toTotal h.running h.sound h.admission p
  have hrun : (job.take i).after o = o' := by rw [hafter, Command.after, hadvance]
  rw [hrun, Sessions.take_announced (hi _), hprogress, ← h.progress]
  by_cases hp : o.progress < p
  · rw [if_pos hp] at ho'
    rw [Input.progress_of_lt hp]
    exact ⟨(h.reach (Int.le_of_lt hgap) hg.toTotal hp ho'.1 ho'.2).1, ho'.2.drops⟩
  · rw [if_neg hp] at ho'
    subst ho'
    rw [Input.progress_of_le hp, h.progress, h.reach_self]
    exact ⟨h, rfl⟩

/-- An operator does with an input what the sessions do. -/
theorem Minds.take [LawfulEncoding α] (hg : job.aggregate.Monoidal) {i : Input κ ν}
    (hi : i.Plain) :
    job.Minds gap.toInt (l.take gap.toInt job.policy.val.lateness.toInt i)
      ((job.take i).after o) ∧
    ((job.take i).after o).drops.total =
      o.drops.total + [(job.take i).answer o].countP Answer.isDropped := by
  have hkept : (∀ q, i.arrival? q = none) → [(job.take i).answer o].countP Answer.isDropped = 0 :=
    fun hi => by rw [List.countP_singleton, not_isDropped_of_announcement hi]; rfl
  cases i with
  | advance p =>
    obtain ⟨hminds, hdrops⟩ := h.announced hshape hg (i := .advance p) (fun _ => rfl)
      (fun _ => rfl) (by rw [Job.take, Command.after_map])
    exact ⟨hminds, by rw [hdrops, hkept fun _ => rfl, Nat.add_zero]⟩
  | watermark w =>
    obtain ⟨hminds, hdrops⟩ := h.announced hshape hg (i := .watermark w) (fun _ => rfl)
      (fun _ => rfl) (by rw [Job.take, Command.after_map, job.after_watermark hdomain])
    exact ⟨hminds, by rw [hdrops, hkept fun _ => rfl, Nat.add_zero]⟩
  | record now key t v =>
    have harrival : (Input.record now key t v : Input κ ν).arrival? l.progress =
        some ⟨l.progress, key, t, v⟩ := rfl
    by_cases ht : OnLine (t.toInt + gap.toInt)
    · by_cases hearly : o.progress <
          nearest (t.toInt + gap.toInt - 1 + job.policy.val.lateness.toInt)
      · obtain ⟨o', hfeed, hminds, hdrops⟩ := h.feed_accepted hshape hdomain hg now
          ⟨l.progress, key, t, v⟩ hi ht hearly
        rw [Sessions.take_accepted harrival ⟨ht, h.progress ▸ hearly⟩, Command.after,
          Command.answer, take_of_feed_ok hfeed]
        exact ⟨hminds, by rw [hdrops]; rfl⟩
      · have hfeed := h.feed_dropped hshape hdomain now key v ht (Int64.not_lt.1 hearly)
        rw [Sessions.take_rejected harrival fun ha => hearly (h.progress ▸ ha.2), Command.after,
          Command.answer, take_of_feed_ok hfeed]
        exact ⟨h.of_drops _, rfl⟩
    · have hfeed := h.feed_refused hshape hdomain now key v ht
      rw [Sessions.take_rejected harrival fun ha => ht ha.1, Command.after, Command.answer,
        take_of_feed_error hfeed]
      exact ⟨h, rfl⟩

end Take

omit [DecidableEq κ] in
theorem minds_start (job : Job κ ν α ω) (drains : List (DrainOrder α)) (gap : Int) :
    job.Minds gap ({} : Sessions κ ν) (job.start {} .none drains) := by
  have hentry : ∀ s, (job.start {} .none drains).entryAt s = none := Cells.entryAt_empty
  refine ⟨⟨rfl, rfl, fun s e => ?_, by simp, .nil⟩, job.sound_start {} drains, rfl,
    Sessions.placed_start⟩
  simp [hentry]

/-- Every run of a fresh operator minds the sessions of its inputs. -/
theorem minds [LawfulEncoding α] {gap : Int64} (hshape : job.policy.val.shape = .session gap)
    (hdomain : job.settings.val.domain = .event) (hg : job.aggregate.Monoidal)
    (drains : List (DrainOrder α)) {inputs : List (Input κ ν)} (hplain : ∀ i ∈ inputs, i.Plain) :
    let o := job.start {} .none drains
    job.Minds gap.toInt (.after gap.toInt job.policy.val.lateness.toInt inputs)
      (job.after o inputs) ∧
    (job.after o inputs).drops.total = (job.answers o inputs).countP Answer.isDropped := by
  intro o
  induction inputs using List.reverseRecOn with
  | nil => exact ⟨job.minds_start drains gap.toInt, rfl⟩
  | append_singleton inputs i ih =>
    obtain ⟨hminds, hdrops⟩ := ih fun j hj => hplain j (by simp [hj])
    obtain ⟨hstep, hcount⟩ := hminds.take hshape hdomain hg (hplain i (by simp))
    rw [after_snoc, Sessions.after_snoc, answers_snoc, List.countP_append, ← hdrops]
    exact ⟨hstep, hcount⟩

/-- In event time, an operator of session windows holds and emits the connected components of the
accepted records, in whichever orders its buffer is written to the store. They share the accepted
records out, each has the window from its earliest record to the gap behind its latest, and it is
emitted as a whole with the first progress that finds it due. A record is dropped if its own
candidate is due; one without a candidate on the time line is refused and changes nothing. -/
theorem attends_of_session [LawfulEncoding α] {gap : Int64}
    (hshape : job.policy.val.shape = .session gap) (hdomain : job.settings.val.domain = .event)
    (hg : job.aggregate.Monoidal) (drains : List (DrainOrder α)) {inputs : List (Input κ ν)}
    (hplain : ∀ i ∈ inputs, i.Plain) :
    let lateness := job.policy.val.lateness.toInt
    let l := Sessions.after gap.toInt lateness inputs
    let o := job.after (job.start {} .none drains) inputs
    job.Attends gap.toInt l o ∧
    Session.Components gap.toInt l.waiting ∧
    (∀ s ∈ l.sent ++ l.waiting, s.Connected gap.toInt ∧
      (s.window gap.toInt).start.toInt = s.earliest ∧
      (s.window gap.toInt).stop.toInt = s.latest + gap.toInt) ∧
    ((Input.arrivals inputs).filter (Arrival.Accepted gap.toInt lateness ·)).Perm
      ((l.sent ++ l.waiting).flatMap Session.members) ∧
    (∀ p, ∃ o' out, job.advance p o = .ok () o' ∧
      o'.collector.items = o.collector.items ++ out ∧
      ((l.waiting.filter (·.dueAt gap.toInt lateness ≤ p)).map (job.emission gap.toInt)).Perm
        (out.map .ok)) ∧
    o.drops.total = (job.answers (job.start {} .none drains) inputs).countP Answer.isDropped ∧
    ∀ now (key : κ) t v, Encoding.Faithful key →
      (OnLine (t.toInt + gap.toInt) → ∃ x o', job.feed now key t v o = .ok x o' ∧
        (x = .dropped ↔ nearest (t.toInt + gap.toInt - 1 + lateness) ≤ o.progress)) ∧
      (¬ OnLine (t.toInt + gap.toInt) → job.feed now key t v o = .error (.offTheLine t) o) := by
  intro lateness l o
  obtain ⟨h, hdrops⟩ : job.Minds gap.toInt l o ∧ _ := minds hshape hdomain hg drains hplain
  have hgap := Policy.gap_pos hshape job.policy.property
  refine ⟨h.toAttends, h.placed.toComponents, fun s hs => ?_,
    Sessions.accepted_perm _ _ inputs, fun p => ?_, hdrops,
    fun now key t v hkey => ⟨fun ht => ?_, h.feed_refused hshape hdomain now key v⟩⟩
  · have hfits : s.Fits gap.toInt := fun a ha => (Sessions.accepted_of_mem _ _ hs ha).1
    refine ⟨?_, hfits.start_window, hfits.stop_window⟩
    rcases List.mem_append.1 hs with hs | hs
    · exact Sessions.connected_sent _ _ inputs s hs
    · exact h.placed.connected s hs
  · obtain ⟨o', hadvance, ho'⟩ := job.exists_advance hg.toTotal h.running h.sound h.admission p
    by_cases hp : o.progress < p
    · rw [if_pos hp] at ho'
      obtain ⟨out, hitems, hout⟩ := (h.reach (Int.le_of_lt hgap) hg.toTotal hp ho'.1 ho'.2).2
      exact ⟨o', out, hadvance, hitems, hout⟩
    · rw [if_neg hp] at ho'
      refine ⟨o', [], hadvance, by rw [ho', List.append_nil], ?_⟩
      have hgone : l.waiting.filter (·.dueAt gap.toInt lateness ≤ p) = [] :=
        h.not_due (Int64.not_lt.1 hp)
      rw [hgone]
      exact .nil
  · by_cases hdue : nearest (t.toInt + gap.toInt - 1 + lateness) ≤ o.progress
    · exact ⟨_, _, h.feed_dropped hshape hdomain now key v ht hdue, by simp [hdue]⟩
    · obtain ⟨o', hfeed, _⟩ := h.feed_accepted hshape hdomain hg now ⟨l.progress, key, t, v⟩ hkey
        ht (Int64.not_le.1 hdue)
      exact ⟨.accepted, o', hfeed, by simp [hdue]⟩

/-- Sessions of a gap of ten: two linked records are emitted as one session, a record of another key
waits, and the last record comes too late. -/
theorem attends_two_keys :
    let job := wrappingSums ⟨{ shape := .session 10 }, by decide⟩
    let inputs : List (Input Int64 Int64) :=
      [.record 0 1 12 7, .record 0 1 5 8, .record 0 2 60 4, .advance 40, .record 0 1 20 3]
    let o := job.after (job.start {}) inputs
    job.Attends 10 (.after 10 0 inputs) o ∧ o.collector.items = [⟨1, ⟨5, 22⟩, 15⟩] ∧
      o.drops.total = 1 ∧ (Sessions.after 10 0 inputs).waiting.map Session.payloads = [[4]] := by
  intro job inputs o
  have hshape : job.policy.val.shape = .session 10 := rfl
  exact ⟨(attends_of_session hshape rfl Aggregate.monoidal_wrappingSum [] fun i _ => i.plain).1,
    by decide +kernel, by decide +kernel, by decide +kernel⟩

end Job

end Tidemark
