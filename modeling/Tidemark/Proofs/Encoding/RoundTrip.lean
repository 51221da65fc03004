import Mathlib.Algebra.Group.Nat.Defs
import Tidemark.Operator.Image
import Tidemark.StateStore
import Tidemark.Table.Basic

/-! Reading back what was written. A value is faithful when its decoder takes exactly the bytes of
its encoded form off the front of any bytes that begin with them. Values of fixed width always are;
texts, byte strings and lists are while their length fits its 64-bit field, which is so for all that
is part of an encoded form shorter than `2 ^ 64` bytes. -/

namespace Tidemark

/-! ### Decoders -/

namespace Decoder

variable {α β : Type}

/-- `d` takes `bs` off the front, whatever follows, and answers `x`. -/
def Reads (d : Decoder α) (x : α) (bs : Bytes) : Prop :=
  ∀ rest : Bytes, d.run (bs ++ rest) = .ok (x, rest)

theorem reads_pure (x : α) : Reads (pure x) x [] := fun _ => rfl

theorem Reads.bind {d : Decoder α} {f : α → Decoder β} {x : α} {y : β} {bs cs : Bytes}
    (hd : Reads d x bs) (hf : Reads (f x) y cs) : Reads (d >>= f) y (bs ++ cs) := by
  intro rest
  rw [StateT.run_bind, List.append_assoc, hd]
  exact hf rest

/-- A last step that takes nothing. -/
theorem Reads.last {d : Decoder α} {f : α → Decoder β} {x : α} {y : β} {bs : Bytes}
    (hd : Reads d x bs) (hf : Reads (f x) y []) : Reads (d >>= f) y bs := by
  simpa using hd.bind hf

theorem Reads.map {d : Decoder α} {x : α} {bs : Bytes} (f : α → β) (hd : Reads d x bs) :
    Reads (f <$> d) (f x) bs := by
  intro rest
  rw [StateT.run_map, hd]
  rfl

theorem reads_byte (b : UInt8) : Reads byte b [b] := fun _ => rfl

theorem reads_take (bs : Bytes) (short : DecodeError) : Reads (take bs.length short) bs bs := by
  intro rest
  simp [take, StateT.run]

theorem reads_many {d : Decoder α} {enc : α → Bytes} :
    ∀ xs : List α, (∀ x ∈ xs, Reads d x (enc x)) → Reads (many d xs.length) xs (xs.flatMap enc)
  | [], _ => reads_pure []
  | x :: xs, h => by
    have hx := h x (by simp)
    have hxs := reads_many xs fun y hy => h y (by simp [hy])
    rw [List.flatMap_cons]
    exact hx.bind (hxs.last (reads_pure (x :: xs)))

end Decoder

/-! ### Faithful values -/

namespace Encoding

open Decoder

variable {α β : Type} [Encoding α] [Encoding β]

/-- `x` is read back from its encoded form. -/
def Faithful (x : α) : Prop := Reads decoder x (encode x)

theorem Faithful.decode_append {x : α} (h : Faithful x) (rest : Bytes) :
    decode α (encode x ++ rest) = .ok x := by
  unfold decode
  rw [h rest]
  rfl

theorem Faithful.decode_encode {x : α} (h : Faithful x) : decode α (encode x) = .ok x := by
  simpa using h.decode_append []

/-- Faithful values are told apart by their encoded forms. -/
theorem Faithful.encode_injective {x y : α} (hx : Faithful x) (hy : Faithful y)
    (h : encode x = encode y) : x = y := by
  have e := hx.decode_encode
  rw [h, hy.decode_encode] at e
  exact (Except.ok.inj e).symm

theorem decodeAs_of_ok {bs : Bytes} {x : α} (h : decode α bs = .ok x) (context : String) :
    decodeAs context α bs = .ok x := by
  rw [decodeAs, h]
  rfl

theorem decodeAs_encode {x : α} (h : Faithful x) (context : String) :
    decodeAs context α (encode x) = .ok x :=
  decodeAs_of_ok h.decode_encode context

omit [Encoding β] in
theorem faithful_via {view : β → α} {build : α → β} {x : β} (h : Faithful (view x))
    (hb : build (view x) = x) : @Faithful β (via view build) x := by
  have hm := h.map build
  rwa [hb] at hm

/-! ### Numbers and truth values -/

theorem ofLittleEndian_toLittleEndian (width n : ℕ) :
    ofLittleEndian (toLittleEndian width n) = n % 256 ^ width := by
  induction width generalizing n with
  | zero => simp [toLittleEndian, ofLittleEndian, Nat.mod_one]
  | succ width ih =>
    have h : n % 256 ^ (width + 1) = n % 256 + 256 * (n / 256 % 256 ^ width) := by
      rw [Nat.pow_succ', Nat.mod_mul]
    rw [toLittleEndian, ofLittleEndian, ih, UInt8.toNat_ofNat', h]

theorem reads_number (width : ℕ) {n : ℕ} (hn : n < 256 ^ width) :
    Reads (ofLittleEndian <$> take width) n (toLittleEndian width n) := by
  have h := (reads_take (toLittleEndian width n) .endOfInput).map ofLittleEndian
  rwa [length_toLittleEndian, ofLittleEndian_toLittleEndian, Nat.mod_eq_of_lt hn] at h

theorem faithful_uint32 (n : UInt32) : Faithful n := by
  have h := (reads_number 4 n.toNat_lt).map UInt32.ofNat
  rw [← LawfulFunctor.comp_map, UInt32.ofNat_toNat] at h
  exact h

theorem faithful_uint64 (n : UInt64) : Faithful n := by
  have h := (reads_number 8 n.toNat_lt).map UInt64.ofNat
  rw [← LawfulFunctor.comp_map, UInt64.ofNat_toNat] at h
  exact h

theorem faithful_bool (b : Bool) : Faithful b := by
  have h : ∀ b : Bool, Faithful b := fun b => by
    intro rest
    cases b <;> rfl
  exact h b

/-! ### Compound values -/

theorem faithful_none : Faithful (none : Option α) := fun _ => rfl

theorem faithful_some {x : α} (h : Faithful x) : Faithful (some x) :=
  (reads_byte 1).bind (h.map some)

theorem faithful_pair {x : α} {y : β} (hx : Faithful x) (hy : Faithful y) : Faithful (x, y) :=
  hx.bind (hy.last (reads_pure (x, y)))

theorem faithful_list {xs : List α} (hlen : xs.length < 2 ^ 64) (h : ∀ x ∈ xs, Faithful x) :
    Faithful xs := by
  refine (faithful_uint64 (UInt64.ofNat xs.length)).bind ?_
  rw [UInt64.toNat_ofNat_of_lt' hlen]
  exact reads_many xs h

theorem faithful_bytes {bs : Bytes} (hlen : bs.length < 2 ^ 64) : Faithful bs := by
  refine (faithful_uint64 (UInt64.ofNat bs.length)).bind ?_
  rw [UInt64.toNat_ofNat_of_lt' hlen]
  exact reads_take bs _

theorem faithful_text {s : String} (hlen : (utf8 s).length < 2 ^ 64) : Faithful s := by
  refine (faithful_uint64 (UInt64.ofNat (utf8 s).length)).bind ?_
  rw [UInt64.toNat_ofNat_of_lt' hlen]
  apply (reads_take (utf8 s) .truncatedText).last
  rw [parse_utf8]
  exact reads_pure s

end Encoding

/-! ### Lawful encodings -/

/-- Every value is faithful. Accumulators that hold texts, byte strings or lists have such a type
when the lengths fit: those of `ShortText`, `ShortBytes` and `ShortList`. -/
class LawfulEncoding (α : Type) [Encoding α] : Prop where
  faithful (x : α) : Encoding.Faithful x

export LawfulEncoding (faithful)

namespace Encoding

variable {α β : Type} [Encoding α] [Encoding β]

instance : LawfulEncoding UInt32 := ⟨faithful_uint32⟩

instance : LawfulEncoding UInt64 := ⟨faithful_uint64⟩

instance : LawfulEncoding Bool := ⟨faithful_bool⟩

instance : LawfulEncoding Int32 := ⟨fun n => faithful_via (faithful n.toUInt32) (by simp)⟩

instance : LawfulEncoding Int64 := ⟨fun n => faithful_via (faithful n.toUInt64) (by simp)⟩

instance [LawfulEncoding α] : LawfulEncoding (Option α) where
  faithful
    | none => faithful_none
    | some x => faithful_some (faithful x)

instance [LawfulEncoding α] [LawfulEncoding β] : LawfulEncoding (α × β) where
  faithful p := faithful_pair (faithful p.1) (faithful p.2)

instance : LawfulEncoding Window := ⟨fun w => faithful_via (faithful (w.start, w.stop)) rfl⟩

instance [LawfulEncoding α] : LawfulEncoding (Entry α) where
  faithful e := faithful_via (faithful (e.acc, e.fireAt)) rfl

theorem encode_inj [LawfulEncoding α] {x y : α} : encode x = encode y ↔ x = y :=
  ⟨(faithful x).encode_injective (faithful y), congrArg encode⟩

/-! ### Snapshots and images -/

@[simp] theorem length_encode_uint64 (n : UInt64) : (encode n).length = 8 :=
  length_toLittleEndian 8 n.toNat

theorem length_encode_bytes (bs : Bytes) : (encode bs).length = 8 + bs.length := by
  have h : encode bs = encode (UInt64.ofNat bs.length) ++ bs := rfl
  rw [h, List.length_append, length_encode_uint64]

theorem length_encode_text (s : String) : (encode s).length = 8 + (utf8 s).length :=
  length_encode_bytes (utf8 s)

theorem length_encode_list (xs : List α) :
    (encode xs).length = 8 + (xs.flatMap encode).length := by
  have h : encode xs = encode (UInt64.ofNat xs.length) ++ xs.flatMap encode := rfl
  rw [h, List.length_append, length_encode_uint64]

/-- A list without empty encodings has at most as many members as encoded bytes. -/
theorem length_le_flatMap_encode :
    ∀ xs : List α, (∀ x ∈ xs, encode x ≠ []) → xs.length ≤ (xs.flatMap encode).length
  | [], _ => Nat.le_refl 0
  | x :: xs, h => by
    have hx := List.length_pos_iff.2 (h x (by simp))
    have hxs := length_le_flatMap_encode xs fun y hy => h y (by simp [hy])
    simp only [List.flatMap_cons, List.length_append, List.length_cons]
    omega

theorem length_encode_le_flatMap {x : α} :
    ∀ xs : List α, x ∈ xs → (encode x).length ≤ (xs.flatMap encode).length
  | y :: xs, h => by
    rw [List.flatMap_cons, List.length_append]
    rcases List.mem_cons.1 h with rfl | h
    · omega
    · have := length_encode_le_flatMap xs h
      omega

theorem length_encode_cell (id : CellId) (bs : Bytes) : (encode (id, bs)).length =
    (8 + (utf8 id.state).length) + ((8 + id.key.length) + (8 + id.scope.length)) +
      (8 + bs.length) := by
  have h : encode (id, bs) =
    (encode id.state ++ (encode id.key ++ encode id.scope)) ++ encode bs := rfl
  simp only [h, List.length_append, length_encode_text, length_encode_bytes]

/-- A cell whose encoded form is short enough for its parts' length fields. -/
theorem faithful_cell {p : CellId × Bytes} (h : (encode p).length < 2 ^ 64) : Faithful p := by
  obtain ⟨id, bs⟩ := p
  rw [length_encode_cell] at h
  refine faithful_pair (faithful_via (faithful_pair (faithful_text ?_)
    (faithful_pair (faithful_bytes ?_) (faithful_bytes ?_))) rfl) (faithful_bytes ?_) <;> omega

theorem ofList_toList (cells : Cells) : Std.ExtTreeMap.ofList cells.toList = cells := by
  refine Std.ExtTreeMap.ext_getElem? fun id => ?_
  cases h : cells[id]? with
  | some bs =>
    exact Std.ExtTreeMap.getElem?_ofList_of_mem (k := id) (Std.compare_self)
      Std.ExtTreeMap.distinct_keys_toList
      (Std.ExtTreeMap.mem_toList_iff_getElem?_eq_some.2 h)
  | none =>
    apply Std.ExtTreeMap.getElem?_ofList_of_contains_eq_false
    rw [Std.ExtTreeMap.map_fst_toList_eq_keys, List.contains_eq_mem, decide_eq_false_iff_not,
      Std.ExtTreeMap.mem_keys, Std.ExtTreeMap.mem_iff_isSome_getElem?, h]
    decide

/-- A store's cells are read back from a snapshot that is short enough for its length fields. -/
theorem faithful_cells {cells : Cells} (h : (encode cells).length < 2 ^ 64) : Faithful cells := by
  refine faithful_via ?_ (ofList_toList cells)
  have hsum : 8 + (cells.toList.flatMap encode).length < 2 ^ 64 := by
    rw [← length_encode_list]
    exact h
  refine faithful_list ?_ fun p hp => faithful_cell ?_
  · have := length_le_flatMap_encode cells.toList fun p _ => by
      rw [← List.length_pos_iff, length_encode_cell]
      omega
    omega
  · have := length_encode_le_flatMap cells.toList hp
    omega

theorem faithful_image {i : Image} (h : i.state.length < 2 ^ 64) : Faithful i :=
  faithful_via (faithful_pair (faithful _) (faithful_pair (faithful _)
    (faithful_pair (faithful _) (faithful_bytes h)))) rfl

theorem length_state_le (i : Image) : i.state.length ≤ (encode i).length := by
  have h : encode i =
    encode i.progress ++ (encode i.lastTick ++ (encode i.forwarded ++ encode i.state)) := rfl
  simp only [h, List.length_append, length_encode_bytes]
  omega

/-! ### The progress of an image -/

theorem run_pair {x : α} {y : β} {bs rest : Bytes} (hx : Faithful x)
    (hy : decoder.run bs = .ok (y, rest)) :
    (decoder : Decoder (α × β)).run (encode x ++ bs) = .ok ((x, y), rest) := by
  show (decoder >>= fun x : α => decoder >>= fun y : β => pure (x, y)).run (encode x ++ bs) = _
  rw [StateT.run_bind, hx]
  show (decoder >>= fun y : β => pure (x, y)).run bs = _
  rw [StateT.run_bind, hy]
  rfl

/-- Of a byte string that is too long for its length field, some bytes are read back. -/
theorem exists_run_bytes (bs : Bytes) :
    ∃ front rest, (decoder : Decoder Bytes).run (encode bs) = .ok (front, rest) := by
  have hn := faithful (UInt64.ofNat bs.length) bs
  have hle : (UInt64.ofNat bs.length).toNat ≤ bs.length := by
    rw [UInt64.toNat_ofNat']
    exact Nat.mod_le _ _
  refine ⟨bs.take (UInt64.ofNat bs.length).toNat, bs.drop (UInt64.ofNat bs.length).toNat, ?_⟩
  show (decoder >>= fun n : UInt64 => Decoder.take n.toNat).run
    (encode (UInt64.ofNat bs.length) ++ bs) = _
  rw [StateT.run_bind, hn]
  show (Decoder.take (UInt64.ofNat bs.length).toNat).run bs = _
  simp only [Decoder.take, StateT.run, List.length_take, Nat.min_eq_left hle, if_pos]

/-- An encoded image tells its marks, however long its state is. -/
theorem exists_parse_encode (i : Image) :
    ∃ front, Image.parse (encode i) = .ok { i with state := front } := by
  obtain ⟨front, rest, hstate⟩ := exists_run_bytes i.state
  have hrun := run_pair (faithful i.progress)
    (run_pair (faithful i.lastTick) (run_pair (faithful i.forwarded) hstate))
  refine ⟨front, decodeAs_of_ok ?_ _⟩
  show Prod.fst <$> ((fun q : Timestamp × Timestamp × Timestamp × Bytes =>
    (⟨q.1, q.2.1, q.2.2.1, q.2.2.2⟩ : Image)) <$> decoder).run (encode i.progress ++
      (encode i.lastTick ++ (encode i.forwarded ++ encode i.state))) = _
  rw [StateT.run_map, hrun]
  rfl

theorem progressOf_encode (i : Image) : Image.progressOf (encode i) = .ok i.progress := by
  obtain ⟨front, hparse⟩ := exists_parse_encode i
  rw [Image.progressOf, hparse]
  rfl

end Encoding

end Tidemark
