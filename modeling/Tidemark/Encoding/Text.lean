import Tidemark.Encoding.Fixed

/-! Byte strings and text: the length, then the bytes. Text is UTF-8; bytes that are none are
refused with the place of the first fault, and a text that is cut short is an error of its own. -/

namespace Tidemark

namespace Utf8

/-- An inclusive range of bytes. -/
structure Range where
  low : UInt8
  high : UInt8
deriving DecidableEq, Repr

/-- Every continuation byte. -/
def anyTail : Range := ⟨0x80, 0xBF⟩

/-- What has to follow a first byte; `none` for a byte that begins no character. -/
def tails (b : UInt8) : Option (List Range) :=
  if b ≤ 0x7F then some []
  else if 0xC2 ≤ b ∧ b ≤ 0xDF then some [anyTail]
  else if b = 0xE0 then some [⟨0xA0, 0xBF⟩, anyTail]
  else if b = 0xED then some [⟨0x80, 0x9F⟩, anyTail]
  else if 0xE1 ≤ b ∧ b ≤ 0xEF then some [anyTail, anyTail]
  else if b = 0xF0 then some [⟨0x90, 0xBF⟩, anyTail, anyTail]
  else if 0xF1 ≤ b ∧ b ≤ 0xF3 then some [anyTail, anyTail, anyTail]
  else if b = 0xF4 then some [⟨0x80, 0x8F⟩, anyTail, anyTail]
  else none

/-- The first fault of the bytes, when `seen` bytes of the character at `index` were read and
`owed` has to follow. -/
def faultFrom (index seen : Nat) : (owed : List Range) → Bytes → Option TextFault
  | [], [] => none
  | _ :: _, [] => some (.incomplete index)
  | [], b :: bs =>
    match tails b with
    | some owed => faultFrom (index + seen) 1 owed bs
    | none => some (.invalid 1 (index + seen))
  | r :: owed, b :: bs =>
    if r.low ≤ b ∧ b ≤ r.high then faultFrom index (seen + 1) owed bs
    else some (.invalid seen index)

def fault? (bs : Bytes) : Option TextFault := faultFrom 0 0 [] bs

/-- The text with these bytes, or where they first fail to be one. -/
def parse (bs : Bytes) : Except TextFault String :=
  match String.fromUTF8? ⟨bs.toArray⟩ with
  | some s => .ok s
  | none => .error ((fault? bs).getD (.incomplete bs.length))

end Utf8

namespace Encoding

/-- The length, then the bytes. -/
instance : Encoding Bytes where
  encode bs := encode (UInt64.ofNat bs.length) ++ bs
  decoder := do
    let n : UInt64 ← decoder
    Decoder.take n.toNat

/-- The bytes of a text. -/
def utf8 (s : String) : Bytes := s.toUTF8.data.toList

theorem parse_utf8 (s : String) : Utf8.parse (utf8 s) = .ok s := by
  have h : (⟨(utf8 s).toArray⟩ : ByteArray) = s.toUTF8 := by simp [utf8]
  unfold Utf8.parse
  rw [h]
  simp [String.fromUTF8?, String.fromUTF8, String.toUTF8, s.isValidUTF8]

theorem eq_utf8_of_parse {bs : Bytes} {s : String} (h : Utf8.parse bs = .ok s) : bs = utf8 s := by
  unfold Utf8.parse String.fromUTF8? at h
  split at h
  next t ht =>
    split at ht
    next =>
      cases ht
      cases h
      simp [utf8, String.fromUTF8, String.toUTF8]
    next => cases ht
  next => cases h

instance : Encoding String where
  encode s := encode (utf8 s)
  decoder := do
    let n : UInt64 ← decoder
    let bs ← Decoder.take n.toNat .truncatedText
    match Utf8.parse bs with
    | .ok s => return s
    | .error fault => throw (.notText fault)

end Encoding

end Tidemark
