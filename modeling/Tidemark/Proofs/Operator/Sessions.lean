import Mathlib.Data.List.Induction
import Mathlib.Logic.Relation
import Tidemark.Proofs.Operator.Arrivals

/-! Sessions of records, told without windows. Two records of a key are linked when the closed
intervals from their times to the gap behind them meet, and sessions are the connected components
of the accepted records. One more record joins the components that it is linked to, and a
component leaves as a whole. -/

namespace Tidemark

open Timestamp

namespace Arrival

variable {κ ν : Type} {gap : Int} {a b : Arrival κ ν}

/-- The closed intervals from two records of a key to the gap behind them meet. -/
def Linked (gap : Int) (a b : Arrival κ ν) : Prop :=
  a.key = b.key ∧ a.time.toInt ≤ b.time.toInt + gap ∧ b.time.toInt ≤ a.time.toInt + gap

instance [DecidableEq κ] (gap : Int) (a b : Arrival κ ν) : Decidable (a.Linked gap b) :=
  inferInstanceAs (Decidable (_ ∧ _ ∧ _))

theorem Linked.symm (h : a.Linked gap b) : b.Linked gap a := ⟨h.1.symm, h.2.2, h.2.1⟩

/-- The record can have a session of its own, and that has not come due. -/
def Accepted (gap lateness : Int) (a : Arrival κ ν) : Prop :=
  OnLine (a.time.toInt + gap) ∧ a.progress < nearest (a.time.toInt + gap - 1 + lateness)

instance (gap lateness : Int) (a : Arrival κ ν) : Decidable (a.Accepted gap lateness) :=
  inferInstanceAs (Decidable (_ ∧ _))

/-- A chain of links between records of a list. -/
def Chained (gap : Int) (l : List (Arrival κ ν)) : Arrival κ ν → Arrival κ ν → Prop :=
  Relation.ReflTransGen fun a b => a ∈ l ∧ b ∈ l ∧ a.Linked gap b

theorem Chained.symm {l : List (Arrival κ ν)} (h : Chained gap l a b) : Chained gap l b a := by
  induction h with
  | refl => exact .refl
  | tail _ hlink ih => exact .head ⟨hlink.2.1, hlink.1, hlink.2.2.symm⟩ ih

theorem Chained.mono {l l' : List (Arrival κ ν)} (h : Chained gap l a b) (hl : l ⊆ l') :
    Chained gap l' a b := by
  induction h with
  | refl => exact .refl
  | tail _ hlink ih => exact .tail ih ⟨hl hlink.1, hl hlink.2.1, hlink.2.2⟩

theorem Chained.key_eq {l : List (Arrival κ ν)} (h : Chained gap l a b) : a.key = b.key := by
  induction h with
  | refl => rfl
  | tail _ hlink ih => exact ih.trans hlink.2.2.1

/-- A chain does not step over an instant by more than the gap. -/
theorem Chained.exists_close {l : List (Arrival κ ν)} (h : Chained gap l a b) (hgap : 0 ≤ gap)
    (ha : a ∈ l) {t : Int} (hat : a.time.toInt ≤ t) (htb : t ≤ b.time.toInt) :
    ∃ c ∈ l, t ≤ c.time.toInt + gap ∧ c.time.toInt ≤ t + gap := by
  induction h with
  | refl => exact ⟨a, ha, by omega, by omega⟩
  | @tail b c _ hlink ih =>
    obtain ⟨_, hc, _, _, hstep⟩ := hlink
    by_cases hb : t ≤ b.time.toInt
    · exact ih hb
    · exact ⟨c, hc, by omega, by omega⟩

end Arrival

/-- Records that make up a session, the last to come first. -/
structure Session (κ ν : Type) where
  first : Arrival κ ν
  others : List (Arrival κ ν)

namespace Session

variable {κ ν : Type} {gap : Int} {s r : Session κ ν} {a : Arrival κ ν}

def members (s : Session κ ν) : List (Arrival κ ν) := s.first :: s.others

def key (s : Session κ ν) : κ := s.first.key

def payloads (s : Session κ ν) : List ν := s.members.map Arrival.payload

def times (s : Session κ ν) : List Int := s.members.map fun a => a.time.toInt

theorem times_ne_nil (s : Session κ ν) : s.times ≠ [] := List.cons_ne_nil _ _

def earliest (s : Session κ ν) : Int := s.times.min s.times_ne_nil

def latest (s : Session κ ν) : Int := s.times.max s.times_ne_nil

/-- From the earliest record to the gap behind the latest. -/
def frame (gap : Int) (s : Session κ ν) : Frame := ⟨s.earliest, s.latest + gap⟩

/-- Progress that finds the session due; past the end of the line, that end does. -/
def dueAt (gap lateness : Int) (s : Session κ ν) : Timestamp :=
  nearest (s.latest + gap - 1 + lateness)

theorem earliest_le (h : a ∈ s.members) : s.earliest ≤ a.time.toInt :=
  List.min_le_of_mem (List.mem_map.2 ⟨a, h, rfl⟩)

theorem le_latest (h : a ∈ s.members) : a.time.toInt ≤ s.latest :=
  List.le_max_of_mem (a := a.time.toInt) (List.mem_map.2 ⟨a, h, rfl⟩)

theorem exists_earliest (s : Session κ ν) : ∃ a ∈ s.members, a.time.toInt = s.earliest :=
  List.mem_map.1 (List.min_mem s.times_ne_nil)

theorem exists_latest (s : Session κ ν) : ∃ a ∈ s.members, a.time.toInt = s.latest :=
  List.mem_map.1 (List.max_mem s.times_ne_nil)

/-- Any two records are joined by a chain. -/
def Connected (gap : Int) (s : Session κ ν) : Prop :=
  ∀ a ∈ s.members, ∀ b ∈ s.members, Arrival.Chained gap s.members a b

/-- No record of one is linked to a record of the other. -/
def Apart (gap : Int) (s r : Session κ ν) : Prop :=
  ∀ a ∈ s.members, ∀ b ∈ r.members, ¬ a.Linked gap b

instance : Std.Symm (Apart gap : Session κ ν → Session κ ν → Prop) where
  symm _ _ h := fun a ha b hb hab => h b hb a ha hab.symm

theorem Connected.key_eq (h : s.Connected gap) (ha : a ∈ s.members) : a.key = s.key :=
  (h a ha s.first (by simp [members])).key_eq

/-- Some record of the session is linked to `a`. -/
def Near (gap : Int) (a : Arrival κ ν) (s : Session κ ν) : Prop :=
  ∃ b ∈ s.members, a.Linked gap b

instance [DecidableEq κ] (gap : Int) (a : Arrival κ ν) (s : Session κ ν) :
    Decidable (s.Near gap a) := inferInstanceAs (Decidable (∃ b ∈ s.members, _))

theorem Connected.key_of_near (h : s.Connected gap) (hnear : s.Near gap a) : s.key = a.key := by
  obtain ⟨b, hb, hlink⟩ := hnear
  exact ((hlink.1).trans (h.key_eq hb)).symm

/-- Connected records leave no room between the earliest and the latest of them. -/
theorem Connected.near_iff (h : s.Connected gap) (hgap : 0 ≤ gap) :
    s.Near gap a ↔ a.key = s.key ∧ s.earliest ≤ a.time.toInt + gap ∧
      a.time.toInt ≤ s.latest + gap := by
  constructor
  · rintro ⟨b, hb, hkey, hab, hba⟩
    have hfrom := earliest_le hb
    have hto := le_latest hb
    exact ⟨hkey.trans (h.key_eq hb), by omega, by omega⟩
  · rintro ⟨hkey, hfrom, hto⟩
    obtain ⟨b, hb, hbt⟩ := s.exists_earliest
    obtain ⟨c, hc, hct⟩ := s.exists_latest
    by_cases hbefore : a.time.toInt ≤ b.time.toInt
    · exact ⟨b, hb, hkey.trans (h.key_eq hb).symm, by omega, by omega⟩
    · by_cases hafter : c.time.toInt ≤ a.time.toInt
      · exact ⟨c, hc, hkey.trans (h.key_eq hc).symm, by omega, by omega⟩
      · obtain ⟨d, hd, hclose, hclose'⟩ := (h b hb c hc).exists_close (t := a.time.toInt) hgap hb
          (by omega) (by omega)
        exact ⟨d, hd, hkey.trans (h.key_eq hd).symm, hclose, hclose'⟩

/-- Sessions apart start at different times. -/
theorem Connected.earliest_ne (hs : s.Connected gap) (hr : r.Connected gap) (hgap : 0 ≤ gap)
    (hkey : s.key = r.key) (h : s.Apart gap r) : s.earliest ≠ r.earliest := by
  intro he
  obtain ⟨a, ha, hat⟩ := s.exists_earliest
  obtain ⟨b, hb, hbt⟩ := r.exists_earliest
  apply h a ha b hb
  exact ⟨(hs.key_eq ha).trans (hkey.trans (hr.key_eq hb).symm), by omega, by omega⟩

/-- A record together with the sessions that it joins. -/
def join (a : Arrival κ ν) (near : List (Session κ ν)) : Session κ ν := ⟨a, near.flatMap members⟩

theorem mem_join {near : List (Session κ ν)} {b : Arrival κ ν} :
    b ∈ (join a near).members ↔ b = a ∨ ∃ s ∈ near, b ∈ s.members := by
  rw [members, join, List.mem_cons, List.mem_flatMap]

theorem payloads_join (a : Arrival κ ν) (near : List (Session κ ν)) :
    (join a near).payloads = a.payload :: near.flatMap payloads := by
  rw [payloads, members, join, List.map_cons, List.map_flatMap]
  rfl

theorem connected_join {near : List (Session κ ν)} (hs : ∀ s ∈ near, s.Connected gap)
    (hnear : ∀ s ∈ near, s.Near gap a) : (join a near).Connected gap := by
  have ha : a ∈ (join a near).members := mem_join.2 (.inl rfl)
  have hreach : ∀ b ∈ (join a near).members, Arrival.Chained gap (join a near).members a b := by
    intro b hb
    rcases mem_join.1 hb with rfl | ⟨s, hmem, hb⟩
    · exact .refl
    · have hsub : s.members ⊆ (join a near).members := fun c hc => mem_join.2 (.inr ⟨s, hmem, hc⟩)
      obtain ⟨c, hc, hlink⟩ := hnear s hmem
      exact .head ⟨ha, hsub hc, hlink⟩ ((hs s hmem c hc b hb).mono hsub)
  intro b hb c hc
  exact (hreach b hb).symm.trans (hreach c hc)

/-- The sessions are connected components: connected each, and not linked with one another. -/
structure Components (gap : Int) (l : List (Session κ ν)) : Prop where
  connected : ∀ s ∈ l, s.Connected gap
  apart : l.Pairwise (Apart gap)

theorem Components.sublist {l l' : List (Session κ ν)} (h : Components gap l)
    (hl : l'.Sublist l) : Components gap l' :=
  ⟨fun s hs => h.connected s (hl.subset hs), h.apart.sublist hl⟩

theorem Components.nodup {l : List (Session κ ν)} (h : Components gap l) (hgap : 0 ≤ gap) :
    l.Nodup := by
  refine h.apart.imp fun {s r} hapart he => ?_
  have hself : s.first ∈ s.members := by simp [members]
  exact hapart s.first hself s.first (he ▸ hself) ⟨rfl, by omega, by omega⟩

end Session

/-- The sessions that wait and those that were sent off. -/
structure Sessions (κ ν : Type) where
  progress : Timestamp := .first
  waiting : List (Session κ ν) := []
  sent : List (Session κ ν) := []

namespace Sessions

variable {κ ν : Type} [DecidableEq κ] (gap lateness : Int)

/-- The sessions that a record is linked to. -/
def near (l : Sessions κ ν) (a : Arrival κ ν) : List (Session κ ν) :=
  l.waiting.filter (·.Near gap a)

/-- The session that a record makes of those that it is linked to. -/
def joined (l : Sessions κ ν) (a : Arrival κ ν) : Session κ ν := .join a (l.near gap a)

def accept (l : Sessions κ ν) (a : Arrival κ ν) : Sessions κ ν :=
  { l with waiting := l.waiting.filter (¬ ·.Near gap a) ++ [l.joined gap a] }

omit [DecidableEq κ] in
/-- Sessions that are due leave. -/
def reach (l : Sessions κ ν) (p : Timestamp) : Sessions κ ν where
  progress := p
  waiting := l.waiting.filter (p < ·.dueAt gap lateness)
  sent := l.sent ++ l.waiting.filter (·.dueAt gap lateness ≤ p)

def take (l : Sessions κ ν) (i : Input κ ν) : Sessions κ ν :=
  match i.arrival? l.progress with
  | some a => if a.Accepted gap lateness then l.accept gap a else l
  | none => l.reach gap lateness (i.progress l.progress)

variable {gap lateness} {l : Sessions κ ν} {i : Input κ ν} {a : Arrival κ ν} {s : Session κ ν}

theorem mem_near : s ∈ l.near gap a ↔ s ∈ l.waiting ∧ s.Near gap a := by
  rw [near, List.mem_filter, decide_eq_true_eq]

theorem mem_waiting_accept : s ∈ (l.accept gap a).waiting ↔
    s ∈ l.waiting ∧ ¬ s.Near gap a ∨ s = l.joined gap a := by
  rw [accept, List.mem_append, List.mem_filter, decide_eq_true_eq, List.mem_singleton]

omit [DecidableEq κ] in
theorem mem_waiting_reach {p : Timestamp} : s ∈ (l.reach gap lateness p).waiting ↔
    s ∈ l.waiting ∧ p < s.dueAt gap lateness := by
  rw [reach, List.mem_filter, decide_eq_true_eq]

theorem take_accepted (hi : i.arrival? l.progress = some a) (ha : a.Accepted gap lateness) :
    l.take gap lateness i = l.accept gap a := by
  rw [take, hi]
  exact if_pos ha

theorem take_rejected (hi : i.arrival? l.progress = some a) (ha : ¬ a.Accepted gap lateness) :
    l.take gap lateness i = l := by
  rw [take, hi]
  exact if_neg ha

theorem take_announced (hi : i.arrival? l.progress = none) :
    l.take gap lateness i = l.reach gap lateness (i.progress l.progress) := by
  rw [take, hi]

theorem progress_take (l : Sessions κ ν) (i : Input κ ν) :
    (l.take gap lateness i).progress = i.progress l.progress := by
  cases hi : i.arrival? l.progress with
  | none =>
    rw [take_announced hi]
    rfl
  | some a =>
    have hkept : i.progress l.progress = l.progress := by
      cases i with
      | record now key t v => rfl
      | advance p => cases hi
      | watermark w => cases hi
    rw [hkept]
    by_cases ha : a.Accepted gap lateness
    · rw [take_accepted hi ha]
      rfl
    · rw [take_rejected hi ha]

variable (gap lateness)

/-- The sessions of the inputs. -/
def after (inputs : List (Input κ ν)) : Sessions κ ν := inputs.foldl (take gap lateness) {}

theorem after_snoc (inputs : List (Input κ ν)) (i : Input κ ν) :
    after gap lateness (inputs ++ [i]) = (after gap lateness inputs).take gap lateness i := by
  simp [after]

theorem progress_after (inputs : List (Input κ ν)) :
    (after gap lateness inputs).progress = Input.progressAfter inputs := by
  induction inputs using List.reverseRecOn with
  | nil => rfl
  | append_singleton inputs i ih =>
    rw [after_snoc, progress_take, ih, Input.progressAfter_snoc]

variable {gap} in
/-- Components stay components when one more record joins those that it is linked to. -/
theorem components_accept (h : Session.Components gap l.waiting) (a : Arrival κ ν) :
    Session.Components gap (l.accept gap a).waiting := by
  have hfar : ∀ s ∈ l.waiting.filter (¬ ·.Near gap a), s ∈ l.waiting ∧ ¬ s.Near gap a :=
    fun s hs => by simpa using hs
  refine ⟨fun s hs => ?_, List.pairwise_append.2 ⟨h.apart.sublist List.filter_sublist,
    List.pairwise_singleton _ _, fun s hs r hr b hb c hc hlink => ?_⟩⟩
  · rcases mem_waiting_accept.1 hs with ⟨hs, _⟩ | rfl
    · exact h.connected s hs
    · exact Session.connected_join (fun r hr => h.connected r (mem_near.1 hr).1)
        fun r hr => (mem_near.1 hr).2
  · obtain ⟨hs, hn⟩ := hfar s hs
    rw [List.mem_singleton.1 hr] at hc
    rcases Session.mem_join.1 hc with rfl | ⟨r, hr, hc⟩
    · exact hn ⟨b, hb, hlink.symm⟩
    · obtain ⟨hr, hnr⟩ := mem_near.1 hr
      have hne : s ≠ r := fun he => hn (he ▸ hnr)
      exact h.apart.forall hs hr hne b hb c hc hlink

/-- The waiting sessions are connected components. -/
theorem components_after (inputs : List (Input κ ν)) :
    Session.Components gap (after gap lateness inputs).waiting := by
  induction inputs using List.reverseRecOn with
  | nil => exact ⟨by simp [after], .nil⟩
  | append_singleton inputs i ih =>
    rw [after_snoc, take]
    split
    · next a _ =>
      split
      · exact components_accept ih a
      · exact ih
    · exact ih.sublist List.filter_sublist

/-- Sessions were connected when they were sent off. -/
theorem connected_sent (inputs : List (Input κ ν)) :
    ∀ s ∈ (after gap lateness inputs).sent, s.Connected gap := by
  induction inputs using List.reverseRecOn with
  | nil => simp [after]
  | append_singleton inputs i ih =>
    rw [after_snoc, take]
    split
    · split <;> exact ih
    · intro s hs
      rcases List.mem_append.1 hs with hs | hs
      · exact ih s hs
      · exact (components_after gap lateness inputs).connected s (List.mem_filter.1 hs).1

theorem accept_perm (l : Sessions κ ν) (a : Arrival κ ν) :
    ((l.accept gap a).waiting.flatMap Session.members).Perm
      (l.waiting.flatMap Session.members ++ [a]) := by
  have hsplit : (l.waiting.filter (·.Near gap a) ++ l.waiting.filter (¬ ·.Near gap a)).Perm
      l.waiting := by
    simpa using List.filter_append_perm (·.Near gap a) l.waiting
  refine .trans ?_ ((hsplit.flatMap_right Session.members).append_right [a])
  simp only [accept, joined, near, List.flatMap_append, List.flatMap_singleton, Session.members,
    Session.join]
  exact List.perm_append_comm.trans (List.perm_append_singleton _ _).symm

omit [DecidableEq κ] in
theorem reach_perm (l : Sessions κ ν) (p : Timestamp) :
    ((l.reach gap lateness p).sent ++ (l.reach gap lateness p).waiting).Perm
      (l.sent ++ l.waiting) := by
  have hnot : ∀ s : Session κ ν, (!decide (s.dueAt gap lateness ≤ p)) =
      decide (p < s.dueAt gap lateness) := fun s => by
    rw [← decide_not, decide_eq_decide, Int64.not_le]
  have hsplit := List.filter_append_perm (·.dueAt gap lateness ≤ p) l.waiting
  simp only [hnot] at hsplit
  rw [reach, List.append_assoc]
  exact hsplit.append_left _

/-- Every accepted record is in one session, and every record of a session was accepted. -/
theorem accepted_perm (inputs : List (Input κ ν)) :
    ((Input.arrivals inputs).filter (Arrival.Accepted gap lateness ·)).Perm
      (((after gap lateness inputs).sent ++ (after gap lateness inputs).waiting).flatMap
        Session.members) := by
  induction inputs using List.reverseRecOn with
  | nil => exact .nil
  | append_singleton inputs i ih =>
    rw [after_snoc, Input.arrivals_snoc, ← progress_after gap lateness, List.filter_append]
    generalize after gap lateness inputs = l at ih ⊢
    cases hi : i.arrival? l.progress with
    | some a =>
      by_cases ha : a.Accepted gap lateness
      · have hnew : (some a).toList.filter (Arrival.Accepted gap lateness ·) = [a] := by simp [ha]
        have hjoined := (l.accept_perm gap a).append_left (l.sent.flatMap Session.members)
        rw [← List.append_assoc, ← List.flatMap_append, ← List.flatMap_append] at hjoined
        rw [take_accepted hi ha, hnew]
        exact (ih.append_right [a]).trans hjoined.symm
      · have hnew : (some a).toList.filter (Arrival.Accepted gap lateness ·) = [] := by simp [ha]
        rw [take_rejected hi ha, hnew, List.append_nil]
        exact ih
    | none =>
      rw [take_announced hi, Option.toList_none, List.filter_nil, List.append_nil]
      exact ih.trans ((l.reach_perm gap lateness _).flatMap_right Session.members).symm

theorem accepted_of_mem {inputs : List (Input κ ν)}
    (hs : s ∈ (after gap lateness inputs).sent ++ (after gap lateness inputs).waiting)
    (ha : a ∈ s.members) : a.Accepted gap lateness := by
  have hmem := (accepted_perm gap lateness inputs).mem_iff.2 (List.mem_flatMap.2 ⟨s, hs, ha⟩)
  exact of_decide_eq_true (List.mem_filter.1 hmem).2

end Sessions

end Tidemark
