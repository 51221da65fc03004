import Tidemark.Proofs.Encoding.RoundTrip
import Tidemark.Proofs.Window.Layout
import Tidemark.Window.PolicyEncoding

/-! Policies that are written, encoded and read back. A draft is the durations that a policy is
written with. The encoded form keeps the numbers, and with them every window and every firing time.
It does not keep the note that a duration was too long: what is read back is the policy that the
same draft writes when such durations are cut down to what 64 bits hold, and that policy may be
sound where the one that was encoded is not. -/

namespace Tidemark

/-! ### Durations -/

namespace Span

/-- The longest span of which 64 signed bits hold the milliseconds. -/
def longest : Span := ofMillis 9223372036854775807

def limited (d : Span) : Span := if d.Oversized then longest else d

theorem not_oversized_limited (d : Span) : ¬ d.limited.Oversized := by
  unfold limited
  split
  · decide
  · assumption

theorem millis64_limited (d : Span) : d.limited.millis64 = d.millis64 := by
  unfold limited
  split
  · next h =>
    unfold Oversized at h
    have hends : Timestamp.first.toInt ≤ Timestamp.last.toInt := by decide
    have hlongest : longest.millis64.toInt = Timestamp.last.toInt := by decide
    rw [← Int64.toInt_inj, hlongest, millis64, Timestamp.toInt_nearest_eq]
    omega
  · rfl

/-- What the first duration sets that is too long. -/
def excess? (parts : List (Setting × Span)) : Option Setting :=
  (parts.find? fun part => part.2.Oversized).map Prod.fst

theorem excess?_eq_none {parts : List (Setting × Span)} :
    excess? parts = none ↔ ∀ part ∈ parts, ¬ part.2.Oversized := by
  simp [excess?]

theorem excess?_snoc (parts : List (Setting × Span)) (what : Setting) (d : Span) :
    excess? (parts ++ [(what, d)]) =
      (excess? parts).or (if d.Oversized then some what else none) := by
  rw [excess?, List.find?_append, Option.map_or]
  by_cases h : d.Oversized <;> simp [excess?, h]

end Span

/-! ### The note of a duration that was too long -/

theorem Shape.flaw?_ne_oversized (shape : Shape) (offset : Int64) (what : Setting) :
    shape.flaw? offset ≠ some (.oversized what) := by
  cases shape <;> simp only [flaw?] <;> split_ifs <;> simp

namespace Policy

/-- The first note stays. -/
theorem oversized_noting {p : Policy} {parts : List (Setting × Span)}
    (h : p.oversized = Span.excess? parts) (what : Setting) (d : Span) :
    (p.noting what d).oversized = Span.excess? (parts ++ [(what, d)]) := by
  rw [Span.excess?_snoc, ← h]
  unfold noting
  cases hp : p.oversized with
  | none => by_cases hd : d.Oversized <;> simp [hp, hd]
  | some noted => simp [hp]

theorem flaw?_plain_ne_oversized (p : Policy) (what : Setting) :
    p.plain.flaw? ≠ some (.oversized what) := by
  unfold flaw? plain
  dsimp only
  split
  · simp
  · exact Shape.flaw?_ne_oversized _ _ what

end Policy

/-! ### Encoded policies -/

namespace Encoding

open Decoder

theorem reads_variant {α : Type} {count : ℕ} {body : ℕ → Option (Decoder α)} {k : UInt32}
    {d : Decoder α} {x : α} {bs : Bytes} (hbody : body k.toNat = some d) (hd : Reads d x bs) :
    Reads (variant count body) x (encode k ++ bs) := by
  refine (faithful_uint32 k).bind ?_
  rw [hbody]
  exact hd

instance : LawfulEncoding Shape where
  faithful
    | .tumbling size => reads_variant rfl ((faithful size).map Shape.tumbling)
    | .hopping size slide =>
      reads_variant rfl ((faithful (size, slide)).map fun p => Shape.hopping p.1 p.2)
    | .cumulating cycle step =>
      reads_variant rfl ((faithful (cycle, step)).map fun p => Shape.cumulating p.1 p.2)
    | .session gap => reads_variant rfl ((faithful gap).map Shape.session)

/-- A policy is read back without its note. -/
theorem decode_encode_policy (p : Policy) (more : Bytes) :
    decode Policy (encode p ++ more) = .ok p.plain := by
  have hplain : Faithful p.plain :=
    faithful_via (faithful (p.shape, p.offset, p.lateness)) rfl
  rw [← Policy.encode_plain]
  exact hplain.decode_append more

end Encoding

/-! ### Drafts -/

/-- How a policy is written: its shape, and then its offset and its lateness any number of times. -/
inductive Draft where
  | tumbling (size : Span)
  | hopping (size slide : Span)
  | cumulating (cycle step : Span)
  | session (gap : Span)
  | offset (draft : Draft) (d : Span)
  | lateness (draft : Draft) (d : Span)

namespace Draft

def policy : Draft → Policy
  | tumbling size => .tumbling size
  | hopping size slide => .hopping size slide
  | cumulating cycle step => .cumulating cycle step
  | session gap => .session gap
  | offset draft d => draft.policy.withOffset d
  | lateness draft d => draft.policy.withLateness d

/-- The durations, in the order in which they are written. -/
def parts : Draft → List (Setting × Span)
  | tumbling size => [(.tumblingSize, size)]
  | hopping size slide => [(.hoppingSize, size), (.hoppingSlide, slide)]
  | cumulating cycle step => [(.cumulatingCycle, cycle), (.cumulatingStep, step)]
  | session gap => [(.sessionGap, gap)]
  | offset draft d => draft.parts ++ [(.offset, d)]
  | lateness draft d => draft.parts ++ [(.lateness, d)]

/-- The draft with durations that are not too long. -/
def limited : Draft → Draft
  | tumbling size => .tumbling size.limited
  | hopping size slide => .hopping size.limited slide.limited
  | cumulating cycle step => .cumulating cycle.limited step.limited
  | session gap => .session gap.limited
  | offset draft d => .offset draft.limited d.limited
  | lateness draft d => .lateness draft.limited d.limited

theorem parts_limited (d : Draft) :
    d.limited.parts = d.parts.map fun part => (part.1, part.2.limited) := by
  induction d with
  | offset draft d ih => simp [limited, parts, ih]
  | lateness draft d ih => simp [limited, parts, ih]
  | _ => rfl

/-- The note names the first duration that is too long. -/
theorem oversized_policy (d : Draft) : d.policy.oversized = Span.excess? d.parts := by
  have hnone : ∀ shape : Shape, ({ shape } : Policy).oversized = Span.excess? [] := fun _ => rfl
  induction d with
  | tumbling size => exact Policy.oversized_noting (hnone _) _ _
  | hopping size slide =>
    exact Policy.oversized_noting (Policy.oversized_noting (hnone _) _ size) _ slide
  | cumulating cycle step =>
    exact Policy.oversized_noting (Policy.oversized_noting (hnone _) _ cycle) _ step
  | session gap => exact Policy.oversized_noting (hnone _) _ _
  | offset draft d ih =>
    have hnoted : { draft.policy with offset := d.millis64 }.oversized =
      Span.excess? draft.parts := ih
    exact Policy.oversized_noting hnoted _ d
  | lateness draft d ih =>
    have hnoted : { draft.policy with lateness := d.millis64 }.oversized =
      Span.excess? draft.parts := ih
    exact Policy.oversized_noting hnoted _ d

theorem plain_policy_limited (d : Draft) : d.limited.policy.plain = d.policy.plain := by
  induction d with
  | offset draft d ih =>
    rw [limited, policy, policy, Policy.plain_withOffset, Policy.plain_withOffset, ih,
      Span.millis64_limited]
  | lateness draft d ih =>
    rw [limited, policy, policy, Policy.plain_withLateness, Policy.plain_withLateness, ih,
      Span.millis64_limited]
  | _ =>
    simp only [limited, policy, Policy.tumbling, Policy.hopping, Policy.cumulating, Policy.session,
      Policy.plain_noting, Span.millis64_limited]

/-- A draft with shorter durations writes the same numbers, without a note. -/
theorem policy_limited (d : Draft) : d.limited.policy = d.policy.plain := by
  have hnone : d.limited.policy.oversized = none := by
    rw [oversized_policy, Span.excess?_eq_none, parts_limited]
    intro part hpart
    obtain ⟨part, _, rfl⟩ := List.mem_map.1 hpart
    exact part.2.not_oversized_limited
  rw [← Policy.plain_eq_self hnone, plain_policy_limited]

/-- The policy that a draft writes is read back as the one that the limited draft writes. Shape,
offset and lateness are the same, and so are all windows and all firing times. The first fault is
the same unless a duration is too long: that was a fault and is none any more. So the verdict is the
same unless it was all that was wrong, and then a policy that was refused is read back as sound. -/
theorem decode_eq_limited (d : Draft) (more : Bytes) :
    ∃ p, decode Policy (encode d.policy ++ more) = .ok p ∧ p = d.limited.policy ∧
      (p.shape = d.policy.shape ∧ p.offset = d.policy.offset ∧ p.lateness = d.policy.lateness) ∧
      (∀ t, p.windowsAt t = d.policy.windowsAt t) ∧ (∀ w, p.firesAt w = d.policy.firesAt w) ∧
      d.policy.flaw? = ((Span.excess? d.parts).map Flaw.oversized).or p.flaw? ∧
      (p.flaw? = d.policy.flaw? ↔ ∀ part ∈ d.parts, ¬ part.2.Oversized) ∧
      ((p.flaw? = none ↔ d.policy.flaw? = none) ↔
        (∀ part ∈ d.parts, ¬ part.2.Oversized) ∨ p.flaw? ≠ none) := by
  have hflaw : d.policy.flaw? =
      ((Span.excess? d.parts).map Flaw.oversized).or d.policy.plain.flaw? :=
    oversized_policy d ▸ d.policy.flaw?_eq
  refine ⟨d.policy.plain, Encoding.decode_encode_policy d.policy more, (policy_limited d).symm,
    ⟨rfl, rfl, rfl⟩, fun _ => rfl, fun _ => rfl, hflaw, ?_, ?_⟩
  · rw [hflaw, ← Span.excess?_eq_none]
    cases Span.excess? d.parts with
    | none => simp
    | some what => simpa using d.policy.flaw?_plain_ne_oversized what
  · rw [hflaw, ← Span.excess?_eq_none]
    cases Span.excess? d.parts <;> simp

/-- Sessions that wait for a lateness that is too long are refused, and accepted once they were
encoded and read back. -/
theorem excess_forgotten :
    let d : Draft := .lateness (.session (.ofMillis 10)) (.ofSecs 18446744073709551615)
    d.policy.flaw? = some (.oversized .lateness) ∧
      ∃ p, decode Policy (encode d.policy) = .ok p ∧ p.flaw? = none := by
  intro d
  have hread : decode Policy (encode d.policy) = .ok d.policy.plain := by
    simpa using Encoding.decode_encode_policy d.policy []
  exact ⟨by decide, _, hread, by decide⟩

end Draft

end Tidemark
