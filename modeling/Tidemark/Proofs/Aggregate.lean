import Mathlib.Algebra.BigOperators.Group.List.Basic
import Mathlib.Data.List.Induction
import Tidemark.Aggregate

/-! Folding with aggregates. Payloads are folded one by one, and accumulators are merged in order.
An aggregate that is a commutative monoid depends on neither the order nor the grouping. -/

namespace Tidemark

namespace Aggregate

variable {ν α ω : Type} {g : Aggregate ν α ω}

/-! ### Merging accumulators -/

/-- Merge an accumulator behind another, if there is one. -/
def join (g : Aggregate ν α ω) : Option α → α → Except String (Option α)
  | none, acc => .ok (some acc)
  | some acc, other => (g.merge acc other).map some

/-- All accumulators merged, from the first to the last. -/
def combine (g : Aggregate ν α ω) (accs : List α) : Except String (Option α) :=
  accs.foldlM g.join none

/-- Merge accumulators and add a payload. -/
def grow (g : Aggregate ν α ω) (accs : List α) (v : ν) : Except String α := do
  let found ← g.combine accs
  g.add (found.getD g.create) v

theorem grow_of_combine {g : Aggregate ν α ω} {accs : List α} {found : Option α}
    (h : g.combine accs = .ok found) (v : ν) : g.grow accs v = g.add (found.getD g.create) v := by
  rw [grow, h]
  rfl

theorem grow_of_error {g : Aggregate ν α ω} {accs : List α} {reason : String}
    (h : g.combine accs = .error reason) (v : ν) : g.grow accs v = .error reason := by
  rw [grow, h]
  rfl

theorem exists_of_foldlM_join (g : Aggregate ν α ω) {accs : List α} {acc : α} {found : Option α}
    (h : accs.foldlM g.join (some acc) = .ok found) : ∃ acc', found = some acc' := by
  induction accs generalizing acc with
  | nil => exact ⟨acc, (Except.ok.inj h).symm⟩
  | cons other accs ih =>
    rw [List.foldlM_cons] at h
    cases hm : g.merge acc other with
    | error reason =>
      rw [join, hm] at h
      cases h
    | ok acc' =>
      rw [join, hm] at h
      exact ih h

/-- Something comes out unless nothing went in. -/
theorem combine_eq_none (g : Aggregate ν α ω) {accs : List α} (h : g.combine accs = .ok none) :
    accs = [] := by
  cases accs with
  | nil => rfl
  | cons acc accs =>
    have hfold : accs.foldlM g.join (some acc) = .ok none := h
    obtain ⟨acc', he⟩ := g.exists_of_foldlM_join hfold
    cases he

/-! ### Folding payloads -/

/-- The accumulator of some payloads. -/
def fold (g : Aggregate ν α ω) (vs : List ν) : Except String α := vs.foldlM g.add g.create

/-- The value of some payloads. -/
def value (g : Aggregate ν α ω) (vs : List ν) : Except String ω := do g.result (← g.fold vs)

theorem fold_snoc (g : Aggregate ν α ω) (vs : List ν) (v : ν) :
    g.fold (vs ++ [v]) = (g.fold vs >>= fun acc => g.add acc v) := by
  rw [fold, fold, List.foldlM_append]
  refine bind_congr fun acc => ?_
  rw [List.foldlM_cons]
  exact bind_pure _

theorem value_eq_ok {vs : List ν} {value : ω} :
    g.value vs = .ok value ↔ ∃ acc, g.fold vs = .ok acc ∧ g.result acc = .ok value := by
  rw [Aggregate.value]
  cases g.fold vs with
  | error reason => exact ⟨fun h => (by cases h), fun ⟨_, h, _⟩ => (by cases h)⟩
  | ok acc => exact ⟨fun h => ⟨acc, rfl, h⟩, fun ⟨_, h, hr⟩ => Except.ok.inj h ▸ hr⟩

/-! ### Aggregates that never fail -/

/-- No step is refused. -/
structure Total (g : Aggregate ν α ω) : Prop where
  add : ∀ acc v, ∃ acc', g.add acc v = .ok acc'
  merge : ∀ acc other, ∃ acc', g.merge acc other = .ok acc'
  result : ∀ acc, ∃ value, g.result acc = .ok value

theorem Total.combine (h : g.Total) (accs : List α) : ∃ found, g.combine accs = .ok found := by
  suffices hjoin : ∀ found, ∃ found', accs.foldlM g.join found = .ok found' from hjoin none
  induction accs with
  | nil => exact fun found => ⟨found, rfl⟩
  | cons acc accs ih =>
    intro found
    rw [List.foldlM_cons]
    cases found with
    | none => exact ih (some acc)
    | some acc' =>
      obtain ⟨merged, hm⟩ := h.merge acc' acc
      rw [join, hm]
      exact ih (some merged)

theorem Total.grow (h : g.Total) (accs : List α) (v : ν) : ∃ acc, g.grow accs v = .ok acc := by
  obtain ⟨found, hfound⟩ := h.combine accs
  obtain ⟨acc, hacc⟩ := h.add (found.getD g.create) v
  exact ⟨acc, by rw [grow_of_combine hfound, hacc]⟩

theorem Total.fold (h : g.Total) (vs : List ν) : ∃ acc, g.fold vs = .ok acc := by
  induction vs using List.reverseRecOn with
  | nil => exact ⟨g.create, rfl⟩
  | append_singleton vs v ih =>
    obtain ⟨acc, hacc⟩ := ih
    obtain ⟨acc', hacc'⟩ := h.add acc v
    exact ⟨acc', by rw [fold_snoc, hacc]; exact hacc'⟩

theorem Total.value (h : g.Total) (vs : List ν) : ∃ value, g.value vs = .ok value := by
  obtain ⟨acc, hacc⟩ := h.fold vs
  obtain ⟨value, hvalue⟩ := h.result acc
  exact ⟨value, value_eq_ok.2 ⟨acc, hacc, hvalue⟩⟩

/-! ### Aggregates that are commutative monoids -/

/-- No step is refused, merging is a commutative monoid on the accumulators, and a payload is added
as an accumulator of its own. -/
structure Monoidal (g : Aggregate ν α ω) : Prop extends g.Total where
  assoc : ∀ a b c, (g.merge a b >>= fun ab => g.merge ab c) = (g.merge b c >>= g.merge a)
  comm : ∀ a b, g.merge a b = g.merge b a
  unit : ∀ a, g.merge a g.create = .ok a
  single : ∀ acc v, g.add acc v = (g.add g.create v >>= g.merge acc)

/-- Accumulators are multiplied, and a payload counts as `single` of it. -/
structure Multiplies [CommMonoid α] (g : Aggregate ν α ω) (single : ν → α) : Prop where
  create : g.create = 1
  add : ∀ acc v, g.add acc v = .ok (acc * single v)
  merge : ∀ a b, g.merge a b = .ok (a * b)

theorem Monoidal.exists_multiplies (h : g.Monoidal) :
    ∃ (_ : CommMonoid α) (single : ν → α), g.Multiplies single := by
  choose mul hmul using h.merge
  choose single hsingle using h.add g.create
  have hassoc : ∀ a b c, mul (mul a b) c = mul a (mul b c) := by
    intro a b c
    have habc := h.assoc a b c
    rw [hmul, hmul] at habc
    change g.merge (mul a b) c = g.merge a (mul b c) at habc
    rw [hmul, hmul] at habc
    exact Except.ok.inj habc
  have hcomm : ∀ a b, mul a b = mul b a := by
    intro a b
    have hab := h.comm a b
    rw [hmul, hmul] at hab
    exact Except.ok.inj hab
  have hunit : ∀ a, mul a g.create = a := by
    intro a
    have ha := h.unit a
    rw [hmul] at ha
    exact Except.ok.inj ha
  let monoid : CommMonoid α :=
    { mul, one := g.create, mul_assoc := hassoc, mul_comm := hcomm, mul_one := hunit
      one_mul := fun a => (hcomm _ _).trans (hunit a) }
  refine ⟨monoid, single, rfl, fun acc v => ?_, hmul⟩
  rw [h.single, hsingle]
  exact hmul acc (single v)

section Multiplies

variable [CommMonoid α] {single : ν → α}

theorem Multiplies.fold_eq (h : g.Multiplies single) (vs : List ν) :
    g.fold vs = .ok (vs.map single).prod := by
  induction vs using List.reverseRecOn with
  | nil => exact congrArg Except.ok h.create
  | append_singleton vs v ih =>
    rw [fold_snoc, ih, List.map_append, List.prod_append, List.map_singleton, List.prod_singleton]
    exact h.add _ v

theorem Multiplies.foldlM_join (h : g.Multiplies single) (accs : List α) (acc : α) :
    accs.foldlM g.join (some acc) = .ok (some (acc * accs.prod)) := by
  induction accs generalizing acc with
  | nil => exact congrArg (Except.ok ∘ some) (mul_one acc).symm
  | cons other accs ih =>
    rw [List.foldlM_cons, join, h.merge, List.prod_cons, ← mul_assoc]
    exact ih _

theorem Multiplies.grow_eq (h : g.Multiplies single) (accs : List α) (v : ν) :
    g.grow accs v = .ok (accs.prod * single v) := by
  cases accs with
  | nil =>
    rw [List.prod_nil, ← h.create]
    exact h.add g.create v
  | cons acc accs =>
    have hcombine : g.combine (acc :: accs) = .ok (some (acc * accs.prod)) :=
      h.foldlM_join accs acc
    rw [grow_of_combine hcombine, List.prod_cons]
    exact h.add _ v

end Multiplies

/-- Sums modulo 2⁶⁴ are a commutative monoid. -/
theorem monoidal_wrappingSum : wrappingSum.Monoidal where
  add _ _ := ⟨_, rfl⟩
  merge _ _ := ⟨_, rfl⟩
  result _ := ⟨_, rfl⟩
  assoc a b c := congrArg Except.ok (Int64.add_assoc a b c)
  comm a b := congrArg Except.ok (Int64.add_comm a b)
  unit a := congrArg Except.ok (Int64.add_zero a)
  single acc v := congrArg (fun n => Except.ok (acc + n)) (Int64.zero_add v).symm

end Aggregate

end Tidemark
