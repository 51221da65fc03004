import Tidemark.Encoding.Basic

/-! Numbers of fixed width, least significant byte first, and truth values. -/

namespace Tidemark

namespace Encoding

/-- The lowest `width` bytes of `n`, least significant first. -/
def toLittleEndian : (width n : Nat) → Bytes
  | 0, _ => []
  | width + 1, n => .ofNat n :: toLittleEndian width (n / 256)

/-- The number whose bytes these are. -/
def ofLittleEndian : Bytes → Nat
  | [] => 0
  | b :: bs => b.toNat + 256 * ofLittleEndian bs

@[simp] theorem length_toLittleEndian (width n : Nat) :
    (toLittleEndian width n).length = width := by
  induction width generalizing n with
  | zero => rfl
  | succ width ih => simp [toLittleEndian, ih]

theorem toLittleEndian_ofLittleEndian (bs : Bytes) :
    toLittleEndian bs.length (ofLittleEndian bs) = bs := by
  induction bs with
  | nil => rfl
  | cons b bs ih =>
    have hb : b.toNat < 256 := b.toNat_lt
    simp only [List.length_cons, toLittleEndian, ofLittleEndian]
    have hq : (b.toNat + 256 * ofLittleEndian bs) / 256 = ofLittleEndian bs := by omega
    have hr : UInt8.ofNat (b.toNat + 256 * ofLittleEndian bs) = b := by
      apply UInt8.toNat_inj.1
      rw [UInt8.toNat_ofNat']
      omega
    rw [hq, hr, ih]

instance : Encoding UInt32 where
  encode n := toLittleEndian 4 n.toNat
  decoder := (UInt32.ofNat ∘ ofLittleEndian) <$> Decoder.take 4

instance : Encoding UInt64 where
  encode n := toLittleEndian 8 n.toNat
  decoder := (UInt64.ofNat ∘ ofLittleEndian) <$> Decoder.take 8

instance : Encoding Int32 := via Int32.toUInt32 UInt32.toInt32

instance : Encoding Int64 := via Int64.toUInt64 UInt64.toInt64

/-- One byte, 0 or 1. -/
instance : Encoding Bool where
  encode b := [if b then 1 else 0]
  decoder := do
    match ← Decoder.byte with
    | 0 => return false
    | 1 => return true
    | found => throw (.notBool found)

end Encoding

end Tidemark
