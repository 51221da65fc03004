import Tidemark.Checkpoint.Manifest
import Tidemark.Proofs.Encoding.Prefixes

/-! What decoders accept. An exact encoding reads back every value that fits its length fields, and
it reads nothing but the encoded forms of such values: every byte that a decoder takes is one that
the encoder would have written. Texts, byte strings and lists that fit are types of their own, of
which every value is read back. -/

namespace Tidemark

/-! ### Decoders -/

namespace Decoder

variable {α β : Type}

/-- A composed decoder that has answered, taken apart. -/
theorem parts_of_bind {d : Decoder α} {f : α → Decoder β} {bs rest : Bytes} {y : β}
    (h : (d >>= f).run bs = .ok (y, rest)) :
    ∃ x mid, d.run bs = .ok (x, mid) ∧ (f x).run mid = .ok (y, rest) := by
  rw [StateT.run_bind] at h
  cases hd : d.run bs with
  | error e =>
    rw [hd] at h
    cases h
  | ok q =>
    rw [hd] at h
    exact ⟨q.1, q.2, rfl, h⟩

theorem part_of_map {d : Decoder α} {f : α → β} {bs rest : Bytes} {y : β}
    (h : (f <$> d).run bs = .ok (y, rest)) : ∃ x, d.run bs = .ok (x, rest) ∧ f x = y := by
  rw [← bind_pure_comp] at h
  obtain ⟨x, mid, hd, hpure⟩ := parts_of_bind h
  cases hpure
  exact ⟨x, hd, rfl⟩

/-- What `d` reads, with the proof that it fits. -/
def certify {fits : α → Prop} (d : Decoder α)
    (h : ∀ ⦃bs rest x⦄, d.run bs = .ok (x, rest) → fits x) : Decoder { x : α // fits x } :=
  fun bs =>
    match hrun : d.run bs with
    | .ok (x, rest) => .ok (⟨x, h hrun⟩, rest)
    | .error e => .error e

theorem run_certify {fits : α → Prop} {d : Decoder α}
    (h : ∀ ⦃bs rest x⦄, d.run bs = .ok (x, rest) → fits x) (bs : Bytes) :
    (fun q => (q.1.val, q.2)) <$> (d.certify h).run bs = d.run bs := by
  unfold certify
  simp only [StateT.run]
  split
  next hrun => exact hrun.symm
  next hrun => exact hrun.symm

theorem run_certify_eq_ok {fits : α → Prop} {d : Decoder α}
    {h : ∀ ⦃bs rest x⦄, d.run bs = .ok (x, rest) → fits x} {bs rest : Bytes}
    {x : { x : α // fits x }} :
    (d.certify h).run bs = .ok (x, rest) ↔ d.run bs = .ok (x.val, rest) := by
  rw [← run_certify h bs]
  cases (d.certify h).run bs with
  | ok q =>
    obtain ⟨y, more⟩ := q
    simp only [Functor.map, Except.map, Except.ok.injEq, Prod.mk.injEq, Subtype.ext_iff]
  | error e => simp [Functor.map, Except.map]

theorem eq_of_byte {bs rest : Bytes} {b : UInt8} (h : byte.run bs = .ok (b, rest)) :
    bs = b :: rest := by
  cases bs with
  | nil => cases h
  | cons c bs =>
    cases h
    rfl

theorem eq_of_take {n : ℕ} {short : DecodeError} {bs rest front : Bytes}
    (h : (take n short).run bs = .ok (front, rest)) : front.length = n ∧ bs = front ++ rest := by
  simp only [take, StateT.run] at h
  split at h
  next hlen =>
    cases h
    exact ⟨hlen, (List.take_append_drop n bs).symm⟩
  next => cases h

end Decoder

/-! ### Exact encodings -/

namespace Encoding

open Decoder

variable {α β : Type} [Encoding α] [Encoding β]

/-- The values that fit are read back, and only encoded forms of such values are read. -/
structure Exact (α : Type) [Encoding α] (fits : α → Prop) : Prop where
  faithful : ∀ x, fits x → Faithful x
  found : ∀ ⦃bs rest : Bytes⦄ ⦃x : α⦄, (decoder : Decoder α).run bs = .ok (x, rest) →
    fits x ∧ bs = encode x ++ rest

namespace Exact

variable {fits : α → Prop} {fits' : β → Prop}

theorem congr {other : α → Prop} (h : Exact α fits) (heq : ∀ x, fits x ↔ other x) :
    Exact α other :=
  ⟨fun x hx => h.faithful x ((heq x).2 hx), fun _ _ x hx => (h.found hx).imp_left (heq x).1⟩

/-- What was read off the front is read again, whatever follows. -/
theorem steadyEncoding (h : Exact α fits) : SteadyEncoding α where
  steady bs rest x hrun more := by
    obtain ⟨hfits, rfl⟩ := h.found hrun
    rw [List.append_assoc]
    exact h.faithful x hfits (rest ++ more)

theorem encode_injective (h : Exact α fits) {x y : α} (hx : fits x) (hy : fits y)
    (he : encode x = encode y) : x = y :=
  (h.faithful x hx).encode_injective (h.faithful y hy) he

omit [Encoding β] in
theorem via {view : β → α} {build : α → β} (h : Exact α fits)
    (hbuild : ∀ x, build (view x) = x) (hview : ∀ y, fits y → view (build y) = y) :
    @Exact β (via view build) fun x => fits (view x) :=
  @Exact.mk β (Encoding.via view build) _
    (fun x hx => faithful_via (h.faithful (view x) hx) (hbuild x))
    fun bs rest x hrun => by
      obtain ⟨y, hy, rfl⟩ := part_of_map hrun
      obtain ⟨hfits, rfl⟩ := h.found hy
      rw [hview y hfits]
      refine ⟨hfits, ?_⟩
      show encode y ++ rest = encode (view (build y)) ++ rest
      rw [hview y hfits]

/-! ### Compound values -/

theorem pair (hα : Exact α fits) (hβ : Exact β fits') :
    Exact (α × β) fun p => fits p.1 ∧ fits' p.2 where
  faithful p hp := faithful_pair (hα.faithful p.1 hp.1) (hβ.faithful p.2 hp.2)
  found bs rest p hrun := by
    obtain ⟨x, mid, hx, hrun⟩ := parts_of_bind hrun
    obtain ⟨y, last, hy, hpure⟩ := parts_of_bind hrun
    cases hpure
    obtain ⟨hfx, rfl⟩ := hα.found hx
    obtain ⟨hfy, rfl⟩ := hβ.found hy
    exact ⟨⟨hfx, hfy⟩, (List.append_assoc _ _ _).symm⟩

theorem option (h : Exact α fits) : Exact (Option α) fun x => ∀ y ∈ x, fits y where
  faithful
    | none, _ => faithful_none
    | some y, hy => faithful_some (h.faithful y (hy y rfl))
  found bs rest x hrun := by
    obtain ⟨tag, mid, htag, htail⟩ := parts_of_bind hrun
    obtain rfl := eq_of_byte htag
    -- every tag but these two is refused
    split at htail
    next =>
      cases htail
      exact ⟨by simp, rfl⟩
    next =>
      obtain ⟨y, hy, rfl⟩ := part_of_map htail
      obtain ⟨hfits, rfl⟩ := h.found hy
      exact ⟨fun _ hz => Option.some.inj hz ▸ hfits, rfl⟩
    next => cases htail

theorem many (h : Exact α fits) : ∀ (n : ℕ) {bs rest : Bytes} {xs : List α},
    (many decoder n).run bs = .ok (xs, rest) →
      xs.length = n ∧ (∀ x ∈ xs, fits x) ∧ bs = xs.flatMap encode ++ rest
  | 0, bs, rest, xs, hrun => by
    cases hrun
    exact ⟨rfl, List.forall_mem_nil fits, rfl⟩
  | n + 1, bs, rest, xs, hrun => by
    obtain ⟨x, mid, hx, hrun⟩ := parts_of_bind hrun
    obtain ⟨tail, last, htail, hpure⟩ := parts_of_bind hrun
    cases hpure
    obtain ⟨hfx, rfl⟩ := h.found hx
    obtain ⟨hlen, hall, rfl⟩ := many h n htail
    refine ⟨congrArg (· + 1) hlen, List.forall_mem_cons.2 ⟨hfx, hall⟩, ?_⟩
    rw [List.flatMap_cons, List.append_assoc]

end Exact

/-! ### Numbers -/

theorem ofLittleEndian_lt (bs : Bytes) : ofLittleEndian bs < 256 ^ bs.length := by
  have h := ofLittleEndian_toLittleEndian bs.length (ofLittleEndian bs)
  rw [toLittleEndian_ofLittleEndian] at h
  rw [h]
  exact Nat.mod_lt _ (Nat.pow_pos (by decide))

omit [Encoding α] in
/-- Bytes of the right width are the encoded form of the number they are read as. -/
theorem eq_of_number {width : ℕ} {ofNat : ℕ → α} {toNat : α → ℕ}
    (hexact : ∀ n < 256 ^ width, toNat (ofNat n) = n) {bs rest : Bytes} {x : α}
    (h : ((ofNat ∘ ofLittleEndian) <$> take width).run bs = .ok (x, rest)) :
    bs = toLittleEndian width (toNat x) ++ rest := by
  obtain ⟨front, hfront, rfl⟩ := part_of_map h
  obtain ⟨rfl, rfl⟩ := eq_of_take hfront
  rw [Function.comp_apply, hexact _ (ofLittleEndian_lt front), toLittleEndian_ofLittleEndian]

theorem exact_uint64 : Exact UInt64 fun _ => True where
  faithful n _ := faithful_uint64 n
  found _ _ _ hrun := ⟨trivial, eq_of_number (fun _ => UInt64.toNat_ofNat_of_lt') hrun⟩

/-! ### Texts, byte strings and lists -/

/-- A length field holds the number of members that are read after it. -/
theorem eq_of_length {n : UInt64} {len : ℕ} (h : len = n.toNat) :
    len < 2 ^ 64 ∧ n = UInt64.ofNat len := by
  subst h
  exact ⟨n.toNat_lt, UInt64.ofNat_toNat.symm⟩

theorem exact_bytes : Exact Bytes fun bs => bs.length < 2 ^ 64 where
  faithful _ := faithful_bytes
  found bs rest found hrun := by
    obtain ⟨n, mid, hn, htake⟩ := parts_of_bind hrun
    obtain ⟨-, rfl⟩ := exact_uint64.found hn
    obtain ⟨hlen, rfl⟩ := eq_of_take htake
    obtain ⟨hfits, rfl⟩ := eq_of_length hlen
    exact ⟨hfits, (List.append_assoc _ _ _).symm⟩

theorem exact_text : Exact String fun s => (utf8 s).length < 2 ^ 64 where
  faithful _ := faithful_text
  found bs rest s hrun := by
    obtain ⟨n, mid, hn, htext⟩ := parts_of_bind hrun
    obtain ⟨-, rfl⟩ := exact_uint64.found hn
    obtain ⟨front, last, htake, hparse⟩ := parts_of_bind htext
    obtain ⟨hlen, rfl⟩ := eq_of_take htake
    split at hparse
    next s' hs =>
      cases hparse
      obtain rfl := eq_utf8_of_parse hs
      obtain ⟨hfits, rfl⟩ := eq_of_length hlen
      exact ⟨hfits, (List.append_assoc _ _ _).symm⟩
    next => cases hparse

theorem Exact.list {fits : α → Prop} (h : Exact α fits) :
    Exact (List α) fun xs => xs.length < 2 ^ 64 ∧ ∀ x ∈ xs, fits x where
  faithful xs hxs := faithful_list hxs.1 fun x hx => h.faithful x (hxs.2 x hx)
  found bs rest xs hrun := by
    obtain ⟨n, mid, hn, hmany⟩ := parts_of_bind hrun
    obtain ⟨-, rfl⟩ := exact_uint64.found hn
    obtain ⟨hlen, hall, rfl⟩ := h.many n.toNat hmany
    obtain ⟨hfits, rfl⟩ := eq_of_length hlen
    exact ⟨⟨hfits, hall⟩, (List.append_assoc _ _ _).symm⟩

end Encoding

/-! ### Types of which every value fits -/

/-- Every value is read back, and only encoded forms are read. -/
class ExactEncoding (α : Type) [Encoding α] : Prop where
  exact : Encoding.Exact α fun _ => True

namespace Encoding

variable {α β : Type} [Encoding α] [Encoding β]

theorem exact [ExactEncoding α] : Exact α fun _ => True := ExactEncoding.exact

theorem lawful_of_exact [ExactEncoding α] : LawfulEncoding α where
  faithful x := exact.faithful x trivial

omit [Encoding β] in
theorem exactEncoding_via [ExactEncoding α] {view : β → α} {build : α → β}
    (hbuild : ∀ x, build (view x) = x) (hview : ∀ y, view (build y) = y) :
    @ExactEncoding β (via view build) :=
  @ExactEncoding.mk β (via view build) (exact.via hbuild fun y _ => hview y)

instance : ExactEncoding UInt32 where
  exact := ⟨fun n _ => faithful_uint32 n, fun _ _ _ hrun =>
    ⟨trivial, eq_of_number (fun _ => UInt32.toNat_ofNat_of_lt') hrun⟩⟩

instance : ExactEncoding UInt64 := ⟨exact_uint64⟩

instance : ExactEncoding Int32 := exactEncoding_via (by simp) (by simp)

instance : ExactEncoding Int64 := exactEncoding_via (by simp) (by simp)

instance [ExactEncoding α] : ExactEncoding (Option α) :=
  ⟨exact.option.congr fun _ => by simp⟩

instance [ExactEncoding α] [ExactEncoding β] : ExactEncoding (α × β) :=
  ⟨(exact.pair exact).congr fun _ => by simp⟩

instance : ExactEncoding Window := exactEncoding_via (fun _ => rfl) fun _ => rfl

instance [ExactEncoding α] : ExactEncoding (Entry α) :=
  exactEncoding_via (fun _ => rfl) fun _ => rfl

instance : ExactEncoding Manifest := exactEncoding_via (fun _ => rfl) fun _ => rfl

theorem exact_image : Exact Image fun i => i.state.length < 2 ^ 64 :=
  ((exact.pair (exact.pair (exact.pair exact_bytes))).via (fun _ => rfl) fun _ _ => rfl).congr
    fun _ => by simp

theorem exact_list [ExactEncoding α] : Exact (List α) fun xs => xs.length < 2 ^ 64 :=
  exact.list.congr fun _ => by simp

/-! ### Values that fit, as types of their own -/

variable {fits : α → Prop}

/-- A value that fits is encoded as it is. Whatever is read fits, so nothing is refused on top. -/
@[reducible] def ofFits (h : Exact α fits) : Encoding { x : α // fits x } where
  encode x := encode x.val
  decoder := decoder.certify fun _ _ _ hrun => (h.found hrun).1

theorem exactEncoding_ofFits (h : Exact α fits) : @ExactEncoding { x : α // fits x } (ofFits h) :=
  @ExactEncoding.mk _ (ofFits h) <| @Exact.mk _ (ofFits h) _
    (fun x _ rest => Decoder.run_certify_eq_ok.2 (h.faithful x.val x.property rest))
    fun _ _ _ hrun => ⟨trivial, (h.found (Decoder.run_certify_eq_ok.1 hrun)).2⟩

/-- Texts whose length in bytes fits. -/
abbrev ShortText := { s : String // (utf8 s).length < 2 ^ 64 }

/-- Byte strings whose length fits. -/
abbrev ShortBytes := { bs : Bytes // bs.length < 2 ^ 64 }

/-- Lists whose length fits. -/
abbrev ShortList (α : Type) := { xs : List α // xs.length < 2 ^ 64 }

instance : Encoding ShortText := ofFits exact_text

instance : ExactEncoding ShortText := exactEncoding_ofFits exact_text

instance : LawfulEncoding ShortText := lawful_of_exact

instance : Encoding ShortBytes := ofFits exact_bytes

instance : ExactEncoding ShortBytes := exactEncoding_ofFits exact_bytes

instance : LawfulEncoding ShortBytes := lawful_of_exact

instance [ExactEncoding α] : Encoding (ShortList α) := ofFits exact_list

instance [ExactEncoding α] : ExactEncoding (ShortList α) := exactEncoding_ofFits exact_list

instance [ExactEncoding α] : LawfulEncoding (ShortList α) := lawful_of_exact

end Encoding

end Tidemark
