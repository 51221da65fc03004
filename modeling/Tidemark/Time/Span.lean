import Tidemark.Time.Line

/-! Spans of time: whole seconds and nanoseconds below one second. -/

namespace Tidemark

structure Span where
  secs : UInt64
  nanos : UInt32
  nanos_lt : nanos < 1000000000 := by decide
deriving DecidableEq, Repr

namespace Span

/-- Nanoseconds of a second and more are carried; `none` when the seconds then overflow. -/
def ofParts? (secs : UInt64) (nanos : UInt32) : Option Span :=
  let carried := secs.toNat + nanos.toNat / 1000000000
  if carried < UInt64.size then
    some ⟨.ofNat carried, nanos % 1000000000, UInt32.mod_lt _ (by decide)⟩
  else none

def ofSecs (secs : UInt64) : Span := ⟨secs, 0, by decide⟩

def ofMillis (ms : UInt64) : Span :=
  ⟨ms / 1000, .ofNat ((ms.toNat % 1000) * 1000000), by
    have h : ms.toNat % 1000 < 1000 := Nat.mod_lt _ (by decide)
    rw [UInt32.lt_iff_toNat_lt, UInt32.toNat_ofNat']
    exact Nat.lt_of_le_of_lt (Nat.mod_le _ _) (Nat.mul_lt_mul_of_pos_right h (by decide))⟩

/-- The whole milliseconds of a span. -/
def millis (d : Span) : Nat := d.secs.toNat * 1000 + d.nanos.toNat / 1000000

/-- The whole milliseconds, at most the greatest 64-bit value. -/
def millis64 (d : Span) : Int64 := Timestamp.nearest d.millis

/-- More whole milliseconds than 64 signed bits hold. -/
def Oversized (d : Span) : Prop := Timestamp.last.toInt < d.millis

instance (d : Span) : Decidable d.Oversized := inferInstanceAs (Decidable (_ < _))

end Span

end Tidemark
