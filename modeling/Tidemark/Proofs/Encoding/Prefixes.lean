import Tidemark.Proofs.Encoding.RoundTrip

/-! Encoded forms that are cut short. A steady decoder does not look ahead: what it reads off the
front of some bytes it also reads when more bytes follow. So of a value that is read back from its
encoded form, no part of that form can be read that ends before the form does. -/

namespace Tidemark

/-! ### Decoders -/

namespace Decoder

variable {α β : Type}

/-- What `d` reads does not depend on what follows. -/
def Steady (d : Decoder α) : Prop :=
  ∀ ⦃bs rest : Bytes⦄ ⦃x : α⦄, d.run bs = .ok (x, rest) →
    ∀ more, d.run (bs ++ more) = .ok (x, rest ++ more)

theorem steady_pure (x : α) : Steady (pure x) := by
  intro bs rest y h more
  cases h
  rfl

theorem steady_throw (e : DecodeError) : Steady (throw e : Decoder α) := fun _ _ _ h => nomatch h

theorem Steady.bind {d : Decoder α} {f : α → Decoder β} (hd : Steady d)
    (hf : ∀ x, Steady (f x)) : Steady (d >>= f) := by
  intro bs rest y h more
  rw [StateT.run_bind] at h ⊢
  cases hx : d.run bs with
  | error e =>
    rw [hx] at h
    cases h
  | ok q =>
    rw [hx] at h
    rw [hd hx more]
    exact hf q.1 h more

theorem Steady.map {d : Decoder α} (hd : Steady d) (f : α → β) : Steady (f <$> d) := by
  rw [← bind_pure_comp]
  exact hd.bind fun x => steady_pure (f x)

theorem steady_take (n : ℕ) (short : DecodeError) : Steady (take n short) := by
  intro bs rest x h more
  simp only [take, StateT.run, List.length_take] at h ⊢
  split at h
  next hn =>
    cases h
    have hle : n ≤ bs.length := by omega
    rw [if_pos (by rw [List.length_append]; omega), List.take_append_of_le_length hle,
      List.drop_append_of_le_length hle]
  next => cases h

theorem Steady.many {d : Decoder α} (hd : Steady d) : ∀ n, Steady (many d n)
  | 0 => steady_pure []
  | n + 1 => hd.bind fun x => (hd.many n).bind fun xs => steady_pure (x :: xs)

end Decoder

/-! ### Encodings -/

/-- The decoder is steady. -/
class SteadyEncoding (α : Type) [Encoding α] : Prop where
  steady : Decoder.Steady (Encoding.decoder : Decoder α)

export SteadyEncoding (steady)

namespace Encoding

open Decoder

variable {α β : Type} [Encoding α] [Encoding β]

/-- Of the encoded form of a faithful value, no part can be read that ends before it does. -/
theorem Faithful.decode_eq_error [SteadyEncoding α] {x : α} (h : Faithful x) {front cut : Bytes}
    (hsplit : front ++ cut = encode x) (hcut : cut ≠ []) : ∃ e, decode α front = .error e := by
  unfold decode
  cases hrun : (decoder : Decoder α).run front with
  | error e => exact ⟨e, rfl⟩
  | ok q =>
    -- the whole form leaves nothing, so what follows the cut would be nothing
    have hmore := steady hrun cut
    have hall := h []
    rw [List.append_nil, ← hsplit, hmore] at hall
    have hrest : q.2 ++ cut = [] := (Prod.mk.inj (Except.ok.inj hall)).2
    exact absurd (List.append_eq_nil_iff.1 hrest).2 hcut

omit [Encoding β] in
theorem steady_via [SteadyEncoding α] (view : β → α) (build : α → β) :
    @SteadyEncoding β (via view build) :=
  @SteadyEncoding.mk β (via view build) ((steady (α := α)).map build)

instance : SteadyEncoding UInt64 := ⟨(steady_take 8 .endOfInput).map _⟩

instance : SteadyEncoding Bytes :=
  ⟨(steady (α := UInt64)).bind fun n => steady_take n.toNat .endOfInput⟩

instance : SteadyEncoding String where
  steady := (steady (α := UInt64)).bind fun n =>
    (steady_take n.toNat .truncatedText).bind fun bs => by
      cases Utf8.parse bs with
      | ok s => exact steady_pure s
      | error fault => exact steady_throw (.notText fault)

instance [SteadyEncoding α] : SteadyEncoding (List α) :=
  ⟨(steady (α := UInt64)).bind fun n => (steady (α := α)).many n.toNat⟩

instance [SteadyEncoding α] [SteadyEncoding β] : SteadyEncoding (α × β) :=
  ⟨(steady (α := α)).bind fun x => (steady (α := β)).bind fun y => steady_pure (x, y)⟩

instance : SteadyEncoding CellId := steady_via _ _

instance : SteadyEncoding Cells := steady_via _ _

end Encoding

end Tidemark
