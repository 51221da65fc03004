/-! Binary encodings. A type is written as a string of bytes and read back from the front of one;
what follows is left over, and each way in which reading fails is a cause of its own. -/

namespace Tidemark

abbrev Bytes := List UInt8

/-- Keys, names and scopes are ordered byte by byte. -/
theorem Bytes.compare_eq_lt {a b : Bytes} : compare a b = .lt ↔ a < b := by
  rw [List.compare_eq_compareLex]
  induction a generalizing b with
  | nil => cases b <;> simp [List.compareLex_nil_nil, List.compareLex_nil_cons]
  | cons x a ih =>
    cases b with
    | nil => simp [List.compareLex_cons_nil]
    | cons y b =>
      rw [List.compareLex_cons_cons, Ordering.then_eq_lt, Std.compare_eq_lt,
        Std.compare_eq_iff_eq, ih, List.cons_lt_cons_iff]

/-- What is wrong with bytes that are no text. -/
inductive TextFault where
  /-- `length` bytes from `index` begin no character. -/
  | invalid (length index : Nat)
  /-- The character from `index` is cut off by the end. -/
  | incomplete (index : Nat)
deriving DecidableEq, Repr

inductive DecodeError where
  | endOfInput
  /-- A text is shorter than its length says. -/
  | truncatedText
  | notText (fault : TextFault)
  | notBool (found : UInt8)
  | optionTag (found : UInt8)
  | variant (found : UInt32) (count : Nat)
  | spanOverflow
deriving DecidableEq, Repr

namespace TextFault

def message : TextFault → String
  | invalid length index => s!"invalid utf-8 sequence of {length} bytes from index {index}"
  | incomplete index => s!"incomplete utf-8 byte sequence from index {index}"

end TextFault

namespace DecodeError

def message : DecodeError → String
  | endOfInput => "io error: unexpected end of file"
  | truncatedText => "io error: "
  | notText fault => "string is not valid utf8: " ++ fault.message
  | notBool found => s!"invalid u8 while decoding bool, expected 0 or 1, found {found}"
  | optionTag found => s!"tag for enum is not valid, found {found}"
  | variant found count =>
    s!"invalid value: integer `{found}`, expected variant index 0 <= i < {count}"
  | spanOverflow => "overflow deserializing Duration"

end DecodeError

/-- Reads a value from the front of the bytes and hands back the rest. -/
abbrev Decoder (α : Type) := StateT Bytes (Except DecodeError) α

class Encoding (α : Type) where
  encode : α → Bytes
  decoder : Decoder α

export Encoding (encode)

/-- The value at the front of `bs`; bytes behind it are ignored. -/
def decode (α : Type) [Encoding α] (bs : Bytes) : Except DecodeError α :=
  Prod.fst <$> Encoding.decoder.run bs

namespace Decoder

variable {α : Type}

/-- The next `n` bytes; fewer than that are the error `short`. -/
def take (n : Nat) (short : DecodeError := .endOfInput) : Decoder Bytes := fun bs =>
  let front := bs.take n
  if front.length = n then .ok (front, bs.drop n) else .error short

/-- The next byte. -/
def byte : Decoder UInt8
  | [] => .error .endOfInput
  | b :: bs => .ok (b, bs)

/-- `n` values, one after another. -/
def many (d : Decoder α) : Nat → Decoder (List α)
  | 0 => pure []
  | n + 1 => do
    let x ← d
    let xs ← many d n
    return x :: xs

end Decoder

namespace Encoding

/-- Encode `β` as the `α` that `view` shows. -/
@[reducible] def via {α β : Type} [Encoding α] (view : β → α) (build : α → β) : Encoding β where
  encode x := encode (view x)
  decoder := build <$> decoder

end Encoding

end Tidemark
