/-! Aggregates: how the payloads of a window become one value. Every step may be refused with a
reason; a refused step leaves the accumulator as it was. -/

namespace Tidemark

/-- Payloads `ν` are folded into accumulators `α`, which give outputs `ω`. -/
structure Aggregate (ν α ω : Type) where
  create : α
  add : α → ν → Except String α
  merge : α → α → Except String α
  result : α → Except String ω

namespace Aggregate

variable {ν α ω : Type}

/-- The exact sum, refused where it would leave 64 bits. -/
def sum : Aggregate Int64 Int64 Int64 where
  create := 0
  add := plus
  merge := plus
  result := .ok
where
  plus (acc n : Int64) : Except String Int64 :=
    let total := acc.toInt + n.toInt
    if Int64.minValue.toInt ≤ total ∧ total ≤ Int64.maxValue.toInt then .ok (.ofInt total)
    else .error s!"i64 sum overflow adding {n} to {acc}"

/-- The sum modulo 2⁶⁴. -/
def wrappingSum : Aggregate Int64 Int64 Int64 where
  create := 0
  add acc n := .ok (acc + n)
  merge acc other := .ok (acc + other)
  result := .ok

/-- The number of payloads. -/
def count : Aggregate ν UInt64 UInt64 where
  create := 0
  add acc _ := .ok (acc + 1)
  merge acc other := .ok (acc + other)
  result := .ok

/-- All payloads combined by `f`, from the first to the last; `none` without payloads. -/
def reduce (f : ν → ν → ν) : Aggregate ν (Option ν) (Option ν) where
  create := none
  add acc n := .ok (some (join acc n))
  merge acc other :=
    match other with
    | none => .ok acc
    | some n => .ok (some (join acc n))
  result := .ok
where
  join : Option ν → ν → ν
    | none, n => n
    | some a, n => f a n

/-- The list of the payloads. -/
def gather : Aggregate ν (List ν) (List ν) where
  create := []
  add acc n := .ok (acc ++ [n])
  merge acc other := .ok (acc ++ other)
  result := .ok

/-- `g`, with steps refused for the reasons given. -/
def vetoed (g : Aggregate ν α ω) (onAdd : ν → Option String) (onMerge onResult : α → Option String) :
    Aggregate ν α ω where
  create := g.create
  add acc n := veto (onAdd n) (g.add acc n)
  merge acc other := veto (onMerge other) (g.merge acc other)
  result acc := veto (onResult acc) (g.result acc)
where
  veto {β : Type} : Option String → Except String β → Except String β
    | some reason, _ => .error reason
    | none, r => r

end Aggregate

end Tidemark
