import Tidemark.Proofs.Aggregate

/-! Assembled accumulators. Payloads are added one by one, and accumulators, empty ones among them,
are merged in any grouping that keeps their order. What comes out is then known from the list of the
payloads: an associative function reduces it from the left, and a count is its length. A checked sum
is the exact sum of the list, and it is refused just when the sum of some stage leaves 64 bits. -/

namespace Tidemark

/-- A way to come to an accumulator. -/
inductive Assembly (ν : Type) where
  | create
  | add (a : Assembly ν) (v : ν)
  | merge (a b : Assembly ν)

namespace Assembly

variable {ν α ω : Type} {g : Aggregate ν α ω}

/-- The payloads, in order. -/
def payloads : Assembly ν → List ν
  | create => []
  | add a v => a.payloads ++ [v]
  | merge a b => a.payloads ++ b.payloads

/-- The accumulator that comes out. -/
def acc (g : Aggregate ν α ω) : Assembly ν → Except String α
  | create => .ok g.create
  | add a v => do g.add (← a.acc g) v
  | merge a b => do g.merge (← a.acc g) (← b.acc g)

def value (g : Aggregate ν α ω) (a : Assembly ν) : Except String ω := do g.result (← a.acc g)

/-- The assemblies that it goes through, itself first. -/
def stages : Assembly ν → List (Assembly ν)
  | create => [create]
  | add a v => add a v :: a.stages
  | merge a b => merge a b :: (a.stages ++ b.stages)

theorem mem_stages_self (a : Assembly ν) : a ∈ a.stages := by
  cases a <;> simp [stages]

/-- A stage has no more payloads than the whole. -/
theorem length_payloads_le {a s : Assembly ν} (h : s ∈ a.stages) :
    s.payloads.length ≤ a.payloads.length := by
  induction a with
  | create =>
    obtain rfl := List.mem_singleton.1 h
    exact Nat.le_refl _
  | add a v ih =>
    rcases List.mem_cons.1 h with rfl | h
    · exact Nat.le_refl _
    · have hle := ih h
      simp only [payloads, List.length_append]
      omega
  | merge a b iha ihb =>
    rcases List.mem_cons.1 h with rfl | h
    · exact Nat.le_refl _
    · simp only [payloads, List.length_append]
      rcases List.mem_append.1 h with h | h
      · have hle := iha h
        omega
      · have hle := ihb h
        omega

/-- Payloads added one by one. -/
def chain (vs : List ν) : Assembly ν := vs.foldl add create

/-! ### Assemblies merged one by one -/

def join : List (Assembly ν) → Assembly ν
  | [] => create
  | a :: as => as.foldl merge a

theorem payloads_join (as : List (Assembly ν)) : (join as).payloads = as.flatMap payloads := by
  have hfold : ∀ (as : List (Assembly ν)) a,
      (as.foldl merge a).payloads = a.payloads ++ as.flatMap payloads := by
    intro as
    induction as with
    | nil => simp
    | cons b as ih =>
      intro a
      rw [List.foldl_cons, ih, payloads, List.flatMap_cons, List.append_assoc]
  cases as with
  | nil => rfl
  | cons a as => rw [join, hfold, List.flatMap_cons]

theorem acc_foldl_merge (g : Aggregate ν α ω) (as : List (Assembly ν)) (a : Assembly ν) :
    (as.foldl merge a).acc g =
      (a.acc g >>= fun x => as.foldlM (fun x b => do g.merge x (← b.acc g)) x) := by
  induction as generalizing a with
  | nil => exact (bind_pure _).symm
  | cons b as ih =>
    rw [List.foldl_cons, ih, acc]
    simp only [List.foldlM_cons, bind_assoc]

theorem foldlM_join {as : List (Assembly ν)} {accs : List α}
    (h : List.Forall₂ (fun a x => a.acc g = .ok x) as accs) (x : α) :
    accs.foldlM g.join (some x) =
      some <$> as.foldlM (fun x b => do g.merge x (← b.acc g)) x := by
  induction h generalizing x with
  | nil => rfl
  | @cons b other as accs hb _ ih =>
    rw [List.foldlM_cons, List.foldlM_cons, Aggregate.join, hb]
    show ((g.merge x other).map some >>= _) = some <$> (g.merge x other >>= _)
    cases g.merge x other with
    | error reason => rfl
    | ok merged => exact ih merged

/-- When windows merge and take in a payload, their accumulators are assembled in their order, with
the payload last. -/
theorem exists_acc_eq_grow {as : List (Assembly ν)} {accs : List α}
    (h : List.Forall₂ (fun a x => a.acc g = .ok x) as accs) (v : ν) :
    ∃ a : Assembly ν, a.payloads = as.flatMap payloads ++ [v] ∧ a.acc g = g.grow accs v := by
  refine ⟨(join as).add v, by rw [payloads, payloads_join], ?_⟩
  cases h with
  | nil => rfl
  | @cons a x as accs ha h =>
    have hcombine : g.combine (x :: accs) =
      some <$> as.foldlM (fun x b => do g.merge x (← b.acc g)) x := foldlM_join h x
    rw [Aggregate.grow, hcombine, acc, join, acc_foldl_merge, ha]
    show (as.foldlM (fun x b => do g.merge x (← b.acc g)) x >>= fun x => g.add x v) = _
    cases as.foldlM (fun x b => do g.merge x (← b.acc g)) x <;> rfl

/-! ### Accumulators that the payloads determine -/

/-- Adding and merging do to the accumulators `h` what they do to the payloads. -/
structure Homomorphic (g : Aggregate ν α ω) (h : List ν → α) : Prop where
  create : g.create = h []
  add : ∀ vs v, g.add (h vs) v = .ok (h (vs ++ [v]))
  merge : ∀ us vs, g.merge (h us) (h vs) = .ok (h (us ++ vs))

theorem Homomorphic.acc_eq {h : List ν → α} (hg : Homomorphic g h) (a : Assembly ν) :
    a.acc g = .ok (h a.payloads) := by
  induction a with
  | create => exact congrArg Except.ok hg.create
  | add a v ih =>
    rw [acc, ih]
    exact hg.add a.payloads v
  | merge a b iha ihb =>
    rw [acc, iha, ihb]
    exact hg.merge a.payloads b.payloads

end Assembly

namespace Aggregate

open Assembly (Homomorphic)

/-! ### Reductions and counts -/

/-- All values combined by `f`, from the first to the last. -/
def leftReduce {ν : Type} (f : ν → ν → ν) : List ν → Option ν
  | [] => none
  | v :: vs => some (vs.foldl f v)

theorem leftReduce_snoc {ν : Type} (f : ν → ν → ν) (vs : List ν) (v : ν) :
    leftReduce f (vs ++ [v]) = some (reduce.join f (leftReduce f vs) v) := by
  cases vs with
  | nil => rfl
  | cons u vs => simp [leftReduce, reduce.join]

theorem merge_leftReduce {ν : Type} {f : ν → ν → ν} (hf : Std.Associative f) (us vs : List ν) :
    (reduce f).merge (leftReduce f us) (leftReduce f vs) = .ok (leftReduce f (us ++ vs)) := by
  cases vs with
  | nil =>
    rw [List.append_nil]
    rfl
  | cons v vs =>
    cases us with
    | nil => rfl
    | cons u us =>
      have hsplit : (us ++ v :: vs).foldl f u = f (us.foldl f u) (vs.foldl f v) := by
        rw [List.foldl_append, List.foldl_cons, List.foldl_assoc]
      exact congrArg (Except.ok ∘ some) hsplit.symm

theorem homomorphic_reduce {ν : Type} {f : ν → ν → ν} (hf : Std.Associative f) :
    Homomorphic (reduce f) (leftReduce f) where
  create := rfl
  add vs v := congrArg Except.ok (leftReduce_snoc f vs v).symm
  merge := merge_leftReduce hf

theorem homomorphic_count {ν : Type} :
    Homomorphic (count (ν := ν)) fun vs => UInt64.ofNat vs.length where
  create := rfl
  add vs v := by
    rw [List.length_append, UInt64.ofNat_add]
    rfl
  merge us vs := by
    rw [List.length_append, UInt64.ofNat_add]
    rfl

/-! ### Checked sums -/

/-- The exact sum. -/
def total : List Int64 → ℤ
  | [] => 0
  | v :: vs => v.toInt + total vs

/-- Integers of 64 signed bits. -/
def Fits (n : ℤ) : Prop := -2 ^ 63 ≤ n ∧ n < 2 ^ 63

instance (n : ℤ) : Decidable (Fits n) := inferInstanceAs (Decidable (_ ∧ _))

theorem total_append (us vs : List Int64) : total (us ++ vs) = total us + total vs := by
  induction us with
  | nil => exact (Int.zero_add _).symm
  | cons u us ih => rw [List.cons_append, total, total, ih, Int.add_assoc]

theorem total_singleton (v : Int64) : total [v] = v.toInt := Int.add_zero _

theorem plus_of_fits {x y : Int64} (h : Fits (x.toInt + y.toInt)) :
    sum.plus x y = .ok (.ofInt (x.toInt + y.toInt)) := by
  have hmin : Int64.minValue.toInt = -2 ^ 63 := by decide
  have hmax : Int64.maxValue.toInt = 2 ^ 63 - 1 := by decide
  rw [sum.plus, if_pos]
  rw [hmin, hmax]
  exact ⟨h.1, Int.le_sub_one_of_lt h.2⟩

theorem plus_of_not_fits {x y : Int64} (h : ¬ Fits (x.toInt + y.toInt)) :
    sum.plus x y = .error s!"i64 sum overflow adding {y} to {x}" := by
  have hmin : Int64.minValue.toInt = -2 ^ 63 := by decide
  have hmax : Int64.maxValue.toInt = 2 ^ 63 - 1 := by decide
  rw [sum.plus, if_neg]
  rw [hmin, hmax]
  exact fun hle => h ⟨hle.1, Int.lt_of_le_sub_one hle.2⟩

end Aggregate

namespace Assembly

open Aggregate

/-- The exact sum if the sum of every stage fits, and otherwise a refusal at a stage whose sum does
not, in the words that name the two numbers that were to be added there. -/
def Summed (a : Assembly Int64) : Except String Int64 → Prop
  | .ok n => (∀ s ∈ a.stages, Fits (total s.payloads)) ∧ n.toInt = total a.payloads
  | .error reason => ∃ s ∈ a.stages, ¬ Fits (total s.payloads) ∧ ∃ x y : Int64,
      total s.payloads = x.toInt + y.toInt ∧ reason = s!"i64 sum overflow adding {y} to {x}"

/-- The last addition decides when all sums before it fit. -/
theorem summed_plus {a : Assembly Int64} {before : List (Assembly Int64)}
    (hstages : a.stages = a :: before) (hfits : ∀ s ∈ before, Fits (total s.payloads))
    {x y : Int64} (htotal : total a.payloads = x.toInt + y.toInt) : a.Summed (sum.plus x y) := by
  by_cases h : Fits (x.toInt + y.toInt)
  · have hround : (Int64.ofInt (x.toInt + y.toInt)).toInt = x.toInt + y.toInt :=
      Int64.toInt_ofInt_of_le h.1 h.2
    rw [plus_of_fits h]
    refine ⟨?_, hround.trans htotal.symm⟩
    rw [hstages, List.forall_mem_cons, htotal]
    exact ⟨h, hfits⟩
  · rw [plus_of_not_fits h]
    exact ⟨a, a.mem_stages_self, htotal ▸ h, x, y, htotal, rfl⟩

theorem Summed.of_error {a b : Assembly Int64} {reason : String} (h : a.Summed (.error reason))
    (hsub : a.stages ⊆ b.stages) : b.Summed (.error reason) := by
  obtain ⟨s, hs, hrest⟩ := h
  exact ⟨s, hsub hs, hrest⟩

theorem summed_acc (a : Assembly Int64) : a.Summed (a.acc sum) := by
  induction a with
  | create =>
    refine ⟨fun s hs => ?_, rfl⟩
    rw [List.mem_singleton.1 hs]
    decide
  | add a v ih =>
    rw [acc]
    cases hacc : a.acc sum with
    | error reason =>
      rw [hacc] at ih
      exact ih.of_error (List.subset_cons_self _ _)
    | ok n =>
      rw [hacc] at ih
      obtain ⟨hfits, hn⟩ := ih
      refine summed_plus rfl hfits ?_
      rw [payloads, total_append, total_singleton, hn]
  | merge a b iha ihb =>
    rw [acc]
    cases hacc : a.acc sum with
    | error reason =>
      rw [hacc] at iha
      exact iha.of_error fun s hs => List.mem_cons_of_mem _ (List.mem_append_left _ hs)
    | ok m =>
      rw [hacc] at iha
      cases hacc' : b.acc sum with
      | error reason =>
        rw [hacc'] at ihb
        exact ihb.of_error fun s hs => List.mem_cons_of_mem _ (List.mem_append_right _ hs)
      | ok n =>
        rw [hacc'] at ihb
        refine summed_plus rfl (List.forall_mem_append.2 ⟨iha.1, ihb.1⟩) ?_
        rw [payloads, total_append, iha.2, ihb.2]

theorem exists_error_iff {a : Assembly Int64} {r : Except String Int64} (h : a.Summed r) :
    (∃ reason, r = .error reason) ↔ ∃ s ∈ a.stages, ¬ Fits (total s.payloads) := by
  cases r with
  | ok n => exact ⟨fun ⟨_, he⟩ => (by cases he), fun ⟨s, hs, hn⟩ => absurd (h.1 s hs) hn⟩
  | error reason =>
    obtain ⟨s, hs, hn, _⟩ := h
    exact ⟨fun _ => ⟨s, hs, hn⟩, fun _ => ⟨reason, rfl⟩⟩

/-! ### The payloads decide -/

/-- In whatever grouping payloads are put together, an associative function reduces their list from
the left. A checked sum that answers is exact, and it is refused just when the sum of some stage
does not fit, in the words that name the two numbers. Fewer than `2 ^ 64` payloads are counted, at
every stage. Windows that merge and take in a payload are one such grouping. -/
theorem grouping_unseen :
    (∀ {ν : Type} (f : ν → ν → ν), Std.Associative f → ∀ a : Assembly ν,
      a.value (reduce f) = .ok (leftReduce f a.payloads)) ∧
    (∀ a : Assembly Int64,
      (∀ n, a.value sum = .ok n → n.toInt = total a.payloads) ∧
      ((∃ reason, a.value sum = .error reason) ↔ ∃ s ∈ a.stages, ¬ Fits (total s.payloads)) ∧
      ∀ reason, a.value sum = .error reason → ∃ s ∈ a.stages, ¬ Fits (total s.payloads) ∧
        ∃ x y : Int64, total s.payloads = x.toInt + y.toInt ∧
          reason = s!"i64 sum overflow adding {y} to {x}") ∧
    (∀ {ν : Type} (a : Assembly ν), a.payloads.length < 2 ^ 64 → ∀ s ∈ a.stages,
      ∃ n : UInt64, s.value count = .ok n ∧ n.toNat = s.payloads.length) ∧
    ∀ {ν α ω : Type} (g : Aggregate ν α ω) (as : List (Assembly ν)) (accs : List α),
      List.Forall₂ (fun a x => a.acc g = .ok x) as accs → ∀ v, ∃ a : Assembly ν,
        a.payloads = as.flatMap payloads ++ [v] ∧ a.acc g = g.grow accs v := by
  refine ⟨fun f hf a => ?_, fun a => ?_, fun a hlen s hs => ?_,
    fun _ _ _ => exists_acc_eq_grow⟩
  · rw [value, (homomorphic_reduce hf).acc_eq]
    rfl
  · have hsummed : a.Summed (a.value sum) := by
      have hvalue : a.value sum = a.acc sum := bind_pure _
      exact hvalue ▸ a.summed_acc
    refine ⟨fun n hn => ?_, exists_error_iff hsummed, fun reason hr => ?_⟩
    · rw [hn] at hsummed
      exact hsummed.2
    · rwa [hr] at hsummed
  · refine ⟨UInt64.ofNat s.payloads.length, ?_, ?_⟩
    · rw [value, homomorphic_count.acc_eq]
      rfl
    · exact UInt64.toNat_ofNat_of_lt' (Nat.lt_of_le_of_lt (length_payloads_le hs) hlen)

/-- Texts are joined in order, with empty accumulators anywhere. Of two groupings of one list that
sums to the greatest 64-bit number, the one that adds one to it first is refused. -/
theorem grouping_unseen_regrouped :
    let texts : Assembly String :=
      .merge (.merge .create (chain ["a", "b"])) (.merge .create ((chain ["c"]).merge .create))
    let early : Assembly Int64 := (chain [Int64.maxValue, 1]).merge (chain [-1])
    let late : Assembly Int64 := (chain [Int64.maxValue]).merge (chain [1, -1])
    texts.value (reduce (· ++ ·)) = .ok (some "abc") ∧
      early.payloads = late.payloads ∧ (∃ reason, early.value sum = .error reason) ∧
      late.value sum = .ok Int64.maxValue ∧ total late.payloads = 2 ^ 63 - 1 ∧
      (∃ n : UInt64, texts.value count = .ok n ∧ n.toNat = 3) ∧
      ∃ a : Assembly String, a.payloads = ["a", "b", "c", "d"] ∧
        a.acc (reduce (· ++ ·)) = (reduce (· ++ ·)).grow [some "abc", none] "d" := by
  intro texts early late
  obtain ⟨hreduce, hsum, hcount, hgrow⟩ := grouping_unseen
  have hlate : late.value sum = .ok Int64.maxValue := by decide
  refine ⟨hreduce (· ++ ·) ⟨fun _ _ _ => String.append_assoc⟩ texts, rfl, ?_, hlate, ?_, ?_, ?_⟩
  · have hstage : chain [Int64.maxValue, 1] ∈ early.stages :=
      List.mem_cons_of_mem _ (List.mem_append_left _ (mem_stages_self _))
    exact (hsum early).2.1.2 ⟨_, hstage, by decide⟩
  · exact ((hsum late).1 _ hlate).symm
  · exact hcount texts (by decide) texts texts.mem_stages_self
  · exact hgrow (reduce (· ++ ·)) [texts, .create] [some "abc", none] (.cons rfl (.cons rfl .nil)) "d"

end Assembly

end Tidemark
