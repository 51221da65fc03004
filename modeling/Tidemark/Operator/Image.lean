import Tidemark.Encoding.Compound
import Tidemark.Error

/-! What an operator hands out: emitted results, the image it is restored from, and its meters.
Timers are not part of an image; every stored entry carries its firing time. -/

namespace Tidemark

/-- The value of a fired window. -/
structure Emission (κ ω : Type) where
  key : κ
  window : Window
  value : ω
deriving DecidableEq, Repr

/-- An operator's progress and state in encoded form. -/
structure Image where
  progress : Timestamp
  /-- The last clock callback that was acted on. -/
  lastTick : Timestamp
  /-- The highest watermark passed on while the clock drives progress. -/
  forwarded : Timestamp
  /-- A snapshot of the state store. -/
  state : Bytes
deriving DecidableEq, Repr

/-- Drops, drops per second, and how far progress lags behind the clock. -/
structure Meters where
  drops : UInt64
  /-- The bits of the rate as a double. -/
  rate : UInt64
  lag : Int64
deriving DecidableEq, Repr

namespace Encoding

instance {κ ω : Type} [Encoding κ] [Encoding ω] : Encoding (Emission κ ω) :=
  via (fun e => (e.key, e.window, e.value)) (fun q => ⟨q.1, q.2.1, q.2.2⟩)

instance : Encoding Image :=
  via (fun i => (i.progress, i.lastTick, i.forwarded, i.state))
    (fun q => ⟨q.1, q.2.1, q.2.2.1, q.2.2.2⟩)

instance : Encoding Meters :=
  via (fun m => (m.drops, m.rate, m.lag)) (fun q => ⟨q.1, q.2.1, q.2.2⟩)

end Encoding

namespace Image

def parse (bs : Bytes) : Except Error Image := decodeAs "decode processor snapshot" Image bs

/-- The progress that an encoded image records. -/
def progressOf (bs : Bytes) : Except Error Timestamp := Image.progress <$> parse bs

end Image

end Tidemark
