import Tidemark.Encoding.Text
import Tidemark.Time.Span
import Tidemark.Window.Interval

/-! Encodings built from others: options carry a tag, lists their length, and the parts of a pair
follow each other. -/

namespace Tidemark

namespace Encoding

variable {α β : Type}

instance [Encoding α] : Encoding (Option α) where
  encode
    | none => [0]
    | some x => 1 :: encode x
  decoder := do
    match ← Decoder.byte with
    | 0 => return none
    | 1 => some <$> decoder
    | found => throw (.optionTag found)

instance [Encoding α] : Encoding (List α) where
  encode xs := encode (UInt64.ofNat xs.length) ++ xs.flatMap encode
  decoder := do
    let n : UInt64 ← decoder
    Decoder.many decoder n.toNat

instance [Encoding α] [Encoding β] : Encoding (α × β) where
  encode p := encode p.1 ++ encode p.2
  decoder := do
    let x ← decoder
    let y ← decoder
    return (x, y)

/-- Nanoseconds of a second and more are carried into the seconds. -/
instance : Encoding Span where
  encode d := encode d.secs ++ encode d.nanos
  decoder := do
    let secs ← decoder
    let nanos ← decoder
    match Span.ofParts? secs nanos with
    | some d => return d
    | none => throw .spanOverflow

instance : Encoding Window := via (fun w => (w.start, w.stop)) (fun p => ⟨p.1, p.2⟩)

/-- A choice among `count` variants: its number, then what `body` reads. -/
def variant (count : Nat) (body : Nat → Option (Decoder α)) : Decoder α := do
  let k : UInt32 ← decoder
  match body k.toNat with
  | some d => d
  | none => throw (.variant k count)

end Encoding

end Tidemark
