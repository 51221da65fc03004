import Tidemark.Encoding.Compound
import Tidemark.Window.Policy

/-! The encoded form of a policy: shape, offset and lateness. The note of a duration that was too
long is no part of it, so what is encoded is the plain policy. The faults of a policy are those of
the plain one, behind the note. -/

namespace Tidemark

namespace Encoding

instance : Encoding Shape where
  encode
    | .tumbling size => encode (0 : UInt32) ++ encode size
    | .hopping size slide => encode (1 : UInt32) ++ encode (size, slide)
    | .cumulating cycle step => encode (2 : UInt32) ++ encode (cycle, step)
    | .session gap => encode (3 : UInt32) ++ encode gap
  decoder := variant 4 fun
    | 0 => some (Shape.tumbling <$> decoder)
    | 1 => some ((fun p : Int64 × Int64 => Shape.hopping p.1 p.2) <$> decoder)
    | 2 => some ((fun p : Int64 × Int64 => Shape.cumulating p.1 p.2) <$> decoder)
    | 3 => some (Shape.session <$> decoder)
    | _ => none

/-- That a duration was too long is not written; its clamped value is. -/
instance : Encoding Policy :=
  via (fun p => (p.shape, p.offset, p.lateness)) (fun q => ⟨q.1, q.2.1, q.2.2, none⟩)

end Encoding

/-! ### Policies without a note -/

namespace Policy

/-- The policy without a note. -/
def plain (p : Policy) : Policy := { p with oversized := none }

theorem encode_plain (p : Policy) : encode p.plain = encode p := rfl

theorem plain_eq_self {p : Policy} (h : p.oversized = none) : p.plain = p := by
  rw [plain, ← h]

theorem plain_noting (p : Policy) (what : Setting) (d : Span) :
    (p.noting what d).plain = p.plain := by
  unfold noting
  split <;> rfl

theorem plain_withOffset (p : Policy) (d : Span) :
    (p.withOffset d).plain = { p.plain with offset := d.millis64 } := plain_noting ..

theorem plain_withLateness (p : Policy) (d : Span) :
    (p.withLateness d).plain = { p.plain with lateness := d.millis64 } := plain_noting ..

/-- A note is the first fault; without one the numbers decide. -/
theorem flaw?_eq (p : Policy) : p.flaw? = (p.oversized.map Flaw.oversized).or p.plain.flaw? := by
  unfold flaw? plain
  cases p.oversized <;> rfl

end Policy

end Tidemark
