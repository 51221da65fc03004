import Tidemark.Encoding.Compound

/-! Checkpoints: at a barrier each partition saves its state and a manifest that describes it. -/

namespace Tidemark

/-- A partition's share in a checkpoint. -/
structure Share where
  id : UInt64
  partition : UInt32
deriving DecidableEq, Repr

namespace Share

/-- By checkpoint, then by partition. -/
def order : Share → Share → Ordering := compareLex (compareOn id) (compareOn partition)

instance : Ord Share := ⟨order⟩

instance : Std.TransOrd Share :=
  inferInstanceAs (Std.TransCmp (compareLex (compareOn id) (compareOn partition)))

instance : Std.LawfulEqOrd Share where
  eq_of_compare {a b} h := by
    simp only [compare, order, compareLex, Ordering.then_eq_eq] at h
    obtain ⟨h₁, h₂⟩ := h
    cases a
    cases b
    simp only [mk.injEq]
    exact ⟨Std.LawfulEqOrd.eq_of_compare h₁, Std.LawfulEqOrd.eq_of_compare h₂⟩

end Share

/-- What is known about a saved state. -/
structure Manifest where
  id : UInt64
  /-- The barrier's timestamp. -/
  timestamp : Timestamp
  partition : UInt32
  /-- The partition's progress at the barrier. -/
  progress : Timestamp
  /-- The length of the state in bytes. -/
  stateSize : UInt64
deriving DecidableEq, Repr

namespace Manifest

def share (m : Manifest) : Share := ⟨m.id, m.partition⟩

end Manifest

namespace Encoding

instance : Encoding Manifest :=
  via (fun m => (m.id, m.timestamp, m.partition, m.progress, m.stateSize))
    (fun q => ⟨q.1, q.2.1, q.2.2.1, q.2.2.2.1, q.2.2.2.2⟩)

end Encoding

end Tidemark
