import Tidemark.Encoding.Compound

/-! Signals that travel with the records of a stream, and what becomes of a record. -/

namespace Tidemark

/-- No later record is stamped at or before `timestamp`. -/
structure Watermark where
  timestamp : Timestamp
deriving DecidableEq, Repr

namespace Watermark

instance : Ord Watermark := ⟨compareOn timestamp⟩

def text (w : Watermark) : String := s!"Watermark({w.timestamp}ms)"

end Watermark

/-- Asks for checkpoint `id`. -/
structure Barrier where
  id : UInt64
  timestamp : Timestamp := 0
deriving DecidableEq, Repr

/-- A record went into some window, or all its windows had fired. -/
inductive Outcome where
  | accepted | dropped
deriving DecidableEq, Repr

namespace Outcome

def isDropped : Outcome → Bool
  | accepted => false
  | dropped => true

end Outcome

namespace Encoding

instance : Encoding Watermark := via Watermark.timestamp Watermark.mk

instance : Encoding Barrier := via (fun b => (b.id, b.timestamp)) (fun p => ⟨p.1, p.2⟩)

end Encoding

end Tidemark
