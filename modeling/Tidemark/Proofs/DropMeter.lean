import Mathlib.Algebra.BigOperators.Group.List.Lemmas
import Tidemark.DropMeter

/-! The drop meter against its marks. A drop joins the newest bucket only, and buckets are forgotten
from the oldest on, both in the order in which the marks came. Yet a rate that looks back from a
time that no mark is past counts every drop of its span: what a mark forgets lies before the span of
every later time. -/

namespace Tidemark

namespace Bucket

/-- Where the bucket of `t` starts. -/
def startOf (t : Timestamp) : Int := t.toInt - t.toInt % width

/-- The drops in the buckets that are recent at `horizon`. -/
def dropsAfter (horizon : Int) (bs : List Bucket) : ℕ :=
  ((bs.filter (recent horizon)).map drops).foldr (· + ·) 0

@[simp] theorem dropsAfter_nil (horizon : Int) : dropsAfter horizon [] = 0 := rfl

theorem dropsAfter_cons (horizon : Int) (b : Bucket) (bs : List Bucket) :
    dropsAfter horizon (b :: bs) =
      (if horizon < b.start + width then b.drops else 0) + dropsAfter horizon bs := by
  unfold dropsAfter
  rw [List.filter_cons]
  simp only [recent, decide_eq_true_eq]
  split <;> simp

end Bucket

namespace DropMeter

open Bucket

variable {h : Int} {m : DropMeter} {now t : Timestamp} {marks : List Timestamp}

/-! ### One mark -/

/-- One more drop counts once, whether its bucket was there or is new. -/
theorem dropsAfter_record (h start : Int) (bs : List Bucket) :
    dropsAfter h (record start bs) = dropsAfter h bs + if h < start + width then 1 else 0 := by
  fun_induction record start bs with
  | case1 => simp [dropsAfter_cons]
  | case2 b hstart =>
    rw [dropsAfter_cons, dropsAfter_cons, hstart]
    simp only [dropsAfter_nil]
    split <;> rfl
  | case3 b hne => simp [dropsAfter_cons]
  | case4 b bs hbs ih => rw [dropsAfter_cons, ih, dropsAfter_cons, Nat.add_assoc]

/-- What is no longer recent at a horizon is not recent at a later one. -/
theorem dropsAfter_dropWhile {old : Int} (hold : old ≤ h) (bs : List Bucket) :
    dropsAfter h (bs.dropWhile (!recent old ·)) = dropsAfter h bs := by
  induction bs with
  | nil => rfl
  | cons b bs ih =>
    rw [List.dropWhile_cons]
    split
    · next hgone =>
      simp only [recent, Bool.not_eq_true', decide_eq_false_iff_not] at hgone
      have hbefore : ¬ h < b.start + width := by omega
      rw [ih, dropsAfter_cons, if_neg hbefore, Nat.zero_add]
    · rfl

/-- A mark counts from every horizon on that is not before its own. -/
theorem dropsAfter_mark (hle : m.horizon t ≤ h) :
    dropsAfter h (m.mark t).buckets =
      dropsAfter h m.buckets + if h < startOf t + width then 1 else 0 := by
  rw [mark, dropsAfter_dropWhile hle, dropsAfter_record]
  rfl

theorem horizon_mono (m : DropMeter) (hle : t ≤ now) : m.horizon t ≤ m.horizon now := by
  have hle' := Int64.le_iff_toInt_le.1 hle
  unfold horizon
  omega

/-! ### Many marks -/

/-- The meter after marks, in whatever order their times are. -/
def markAll (m : DropMeter) (marks : List Timestamp) : DropMeter := marks.foldl mark m

theorem markAll_cons (m : DropMeter) (t : Timestamp) (marks : List Timestamp) :
    m.markAll (t :: marks) = (m.mark t).markAll marks := rfl

theorem span_markAll (m : DropMeter) (marks : List Timestamp) :
    (m.markAll marks).span = m.span := by
  induction marks generalizing m with
  | nil => rfl
  | cons t marks ih => exact ih (m.mark t)

theorem total_markAll (m : DropMeter) (marks : List Timestamp) :
    (m.markAll marks).total = m.total + marks.length := by
  induction marks generalizing m with
  | nil => rfl
  | cons t marks ih =>
    have htotal : (m.mark t).total = m.total + 1 := rfl
    rw [markAll_cons, ih, htotal, List.length_cons]
    omega

/-- As long as none of them is past `now`, all marks count for the span that ends there. -/
theorem dropsAfter_markAll (hmarks : ∀ t ∈ marks, t ≤ now) :
    dropsAfter (m.horizon now) (m.markAll marks).buckets = dropsAfter (m.horizon now) m.buckets +
      marks.countP (fun t => m.horizon now < startOf t + width) := by
  induction marks generalizing m with
  | nil => rfl
  | cons t marks ih =>
    have hfirst := dropsAfter_mark (m.horizon_mono (hmarks t (by simp)))
    have hrest := ih (m := m.mark t) fun t' ht' => hmarks t' (by simp [ht'])
    -- the span does not change, nor does where it begins
    have hsame : (m.mark t).horizon now = m.horizon now := rfl
    rw [hsame, hfirst] at hrest
    rw [markAll_cons, hrest, List.countP_cons]
    simp only [decide_eq_true_eq]
    omega

theorem recentDrops_eq (m : DropMeter) (now : Timestamp) :
    m.recentDrops now = dropsAfter (m.horizon now) m.buckets := by
  unfold recentDrops
  rw [← List.foldl_map]
  exact List.sum_eq_foldl.symm

/-! ### Without forgetting -/

/-- A bucket for each second in which there were drops, and none forgotten. -/
def ofMarks (span : Int64) (marks : List Timestamp) : DropMeter :=
  let starts := marks.map startOf
  { span, total := marks.length, buckets := starts.dedup.map fun s => ⟨s, starts.count s⟩ }

theorem recentDrops_ofMarks (span : Int64) (marks : List Timestamp) (now : Timestamp) :
    (ofMarks span marks).recentDrops now =
      marks.countP (fun t => now.toInt - span.toInt < startOf t + width) := by
  have hcount := List.sum_map_count_dedup_filter_eq_countP
    (fun s : Int => decide (now.toInt - span.toInt < s + width)) (marks.map startOf)
  rw [List.countP_map] at hcount
  rw [recentDrops_eq, ofMarks, dropsAfter, List.filter_map, List.map_map]
  exact hcount

/-- A span of whole milliseconds is kept as it is, if 64 bits hold it. -/
theorem span_ofSpan {d : Span} (hpos : 1 ≤ d.millis) (hfits : ¬ d.Oversized) :
    (ofSpan d).span.toInt = d.millis := by
  have hlast : Timestamp.last.toInt = 2 ^ 63 - 1 := by decide
  have hlt : d.millis < 2 ^ 63 := by
    unfold Span.Oversized at hfits
    omega
  have htoInt := Int64.toInt_ofNat_of_lt hlt
  have hone : (1 : Int64) ≤ .ofNat d.millis := by
    rw [Int64.le_iff_toInt_le, htoInt]
    exact Int.ofNat_le.2 hpos
  show (if (1 : Int64) ≤ .ofNat d.millis then Int64.ofNat d.millis else 1).toInt = d.millis
  rw [if_pos hone, htoInt]

/-- Forgetting is never seen. After marks in any order, the drops that a rate averages at a time
that no mark is past are all those whose second reaches into the span, just as for the meter that
forgets and splits nothing, and the count is that of the marks. The span is the one that was asked
for wherever 64 bits hold it. -/
theorem forgetting_unseen (d : Span) {marks : List Timestamp} {now : Timestamp}
    (hmarks : ∀ t ∈ marks, t ≤ now) :
    let m := (ofSpan d).markAll marks
    let recent := marks.countP fun t =>
      now.toInt - m.span.toInt < t.toInt - t.toInt % 1000 + 1000
    m.recentDrops now = recent ∧
      m.rate now = (UInt64.ofNat recent).toFloat * 1000.0 / m.span.toFloat ∧
      m.recentDrops now = (ofMarks m.span marks).recentDrops now ∧
      m.rate now = (ofMarks m.span marks).rate now ∧
      m.total = marks.length ∧
      (1 ≤ d.millis → ¬ d.Oversized → m.span.toInt = d.millis) := by
  intro m recent
  have hspan : m.span = (ofSpan d).span := span_markAll (ofSpan d) marks
  have hrecent : m.recentDrops now = recent := by
    have hall := dropsAfter_markAll (m := ofSpan d) hmarks
    have hnone : dropsAfter ((ofSpan d).horizon now) (ofSpan d).buckets = 0 := rfl
    rw [hnone, Nat.zero_add] at hall
    rw [recentDrops_eq, horizon, hspan]
    refine hall.trans ?_
    simp only [recent, hspan]
    rfl
  have hwhole : (ofMarks m.span marks).recentDrops now = recent :=
    recentDrops_ofMarks m.span marks now
  have htotal : m.total = marks.length :=
    (total_markAll (ofSpan d) marks).trans (Nat.zero_add _)
  refine ⟨hrecent, ?_, hrecent.trans hwhole.symm, ?_, htotal, fun hpos hfits => ?_⟩
  · rw [rate, hrecent]
  · rw [rate, rate, hrecent, hwhole]
    rfl
  · rw [hspan]
    exact span_ofSpan hpos hfits

/-- A span of two seconds. The mark at 9 s forgets the bucket of second 4, the next one is late and
opens a second bucket for it, and the one before the epoch stands in front of both. -/
theorem forgetting_unseen_backwards :
    let d : Span := ⟨2, 0, by decide⟩
    let marks : List Timestamp := [4100, 9000, 4200, -1, 8999, 9000]
    (∀ t ∈ marks, t ≤ (9500 : Timestamp)) ∧ 1 ≤ d.millis ∧ ¬ d.Oversized ∧
      ((ofSpan d).markAll marks).recentDrops 9500 = 3 ∧ ((ofSpan d).markAll marks).total = 6 := by
  intro d marks
  have hmarks : ∀ t ∈ marks, t ≤ (9500 : Timestamp) := by simp [marks]
  obtain ⟨hrecent, _, _, _, htotal, hspan⟩ := forgetting_unseen d hmarks
  have hpos : 1 ≤ d.millis := by decide +kernel
  have hfits : ¬ d.Oversized := by decide +kernel
  have hmillis : (d.millis : Int) = 2000 := by decide +kernel
  refine ⟨hmarks, hpos, hfits, hrecent.trans ?_, htotal⟩
  rw [hspan hpos hfits, hmillis]
  decide +kernel

end DropMeter

end Tidemark
