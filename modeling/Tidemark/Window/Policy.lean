import Tidemark.Time.Span

/-! Window policies: the shape of the windows a stream is cut into, where their grid starts, and
how long after its end a window still waits. A policy may be unsound; `flaw?` finds the first
fault, and a `SoundPolicy` has none. -/

namespace Tidemark

inductive Shape where
  /-- Windows of one size, side by side. -/
  | tumbling (size : Int64)
  /-- Windows of one size, one starting at every `slide`. -/
  | hopping (size slide : Int64)
  /-- Windows from the start of a cycle, growing by `step` up to the whole cycle. -/
  | cumulating (cycle step : Int64)
  /-- Windows that grow as long as records arrive within `gap` of each other. -/
  | session (gap : Int64)
deriving DecidableEq, Repr

/-- The durations that a policy is written with. -/
inductive Setting where
  | tumblingSize | hoppingSize | hoppingSlide | cumulatingCycle | cumulatingStep | sessionGap
  | offset | lateness
deriving DecidableEq, Repr

namespace Setting

def label : Setting → String
  | tumblingSize => "tumbling size"
  | hoppingSize => "hopping size"
  | hoppingSlide => "hopping slide"
  | cumulatingCycle => "cumulating max size"
  | cumulatingStep => "cumulating step"
  | sessionGap => "session gap"
  | offset => "offset"
  | lateness => "allowed lateness"

end Setting

structure Policy where
  shape : Shape
  /-- Where the grid of window starts is anchored. -/
  offset : Int64 := 0
  /-- How long firing is put off after the last instant of a window. -/
  lateness : Int64 := 0
  /-- The first duration that was too long for 64-bit milliseconds. -/
  oversized : Option Setting := none
deriving DecidableEq, Repr

/-! ### Writing a policy -/

namespace Policy

/-- Remember `what` when `d` is the first duration that is too long. -/
def noting (p : Policy) (what : Setting) (d : Span) : Policy :=
  if p.oversized = none ∧ d.Oversized then { p with oversized := some what } else p

def tumbling (size : Span) : Policy :=
  ({ shape := .tumbling size.millis64 } : Policy).noting .tumblingSize size

def hopping (size slide : Span) : Policy :=
  (({ shape := .hopping size.millis64 slide.millis64 } : Policy).noting .hoppingSize size).noting
    .hoppingSlide slide

def cumulating (cycle step : Span) : Policy :=
  (({ shape := .cumulating cycle.millis64 step.millis64 } : Policy).noting
    .cumulatingCycle cycle).noting .cumulatingStep step

def session (gap : Span) : Policy :=
  ({ shape := .session gap.millis64 } : Policy).noting .sessionGap gap

def withOffset (p : Policy) (d : Span) : Policy :=
  { p with offset := d.millis64 }.noting .offset d

def withLateness (p : Policy) (d : Span) : Policy :=
  { p with lateness := d.millis64 }.noting .lateness d

end Policy

/-! ### Faults of a policy -/

inductive Flaw where
  | oversized (what : Setting)
  | negativeLateness (lateness : Int64)
  | tumblingSize (size : Int64)
  | tumblingOffset (size offset : Int64)
  | hoppingSize (size slide : Int64)
  | hoppingMultiple (size slide : Int64)
  | hoppingOffset (slide offset : Int64)
  | cumulatingSize (cycle step : Int64)
  | cumulatingMultiple (cycle step : Int64)
  | cumulatingOffset (cycle offset : Int64)
  | sessionGap (gap : Int64)
  | sessionOffset
deriving DecidableEq, Repr

namespace Flaw

def message : Flaw → String
  | oversized what => what.label ++ " does not fit in i64 milliseconds"
  | negativeLateness l => s!"allowed lateness must not be negative, got {l}ms"
  | tumblingSize size => s!"tumbling size must be positive, got {size}ms"
  | tumblingOffset size offset => s!"tumbling offset must be in [0, {size}), got {offset}ms"
  | hoppingSize size slide =>
    s!"hopping size and slide must be positive, got size={size}ms slide={slide}ms"
  | hoppingMultiple size slide =>
    s!"hopping size ({size}ms) must be a multiple of slide ({slide}ms)"
  | hoppingOffset slide offset => s!"hopping offset must be in [0, {slide}), got {offset}ms"
  | cumulatingSize cycle step =>
    s!"cumulating max size and step must be positive, got max_size={cycle}ms step={step}ms"
  | cumulatingMultiple cycle step =>
    s!"cumulating max size ({cycle}ms) must be a multiple of step ({step}ms)"
  | cumulatingOffset cycle offset => s!"cumulating offset must be in [0, {cycle}), got {offset}ms"
  | sessionGap gap => s!"session gap must be positive, got {gap}ms"
  | sessionOffset => "session windows do not support an offset"

end Flaw

namespace Shape

/-- The first fault of a shape whose grid is anchored at `offset`. -/
def flaw? (offset : Int64) : Shape → Option Flaw
  | tumbling size =>
    if size ≤ 0 then some (.tumblingSize size)
    else if offset < 0 ∨ size ≤ offset then some (.tumblingOffset size offset)
    else none
  | hopping size slide =>
    if size ≤ 0 ∨ slide ≤ 0 then some (.hoppingSize size slide)
    else if size < slide ∨ size.toInt % slide.toInt ≠ 0 then some (.hoppingMultiple size slide)
    else if offset < 0 ∨ slide ≤ offset then some (.hoppingOffset slide offset)
    else none
  | cumulating cycle step =>
    if cycle ≤ 0 ∨ step ≤ 0 then some (.cumulatingSize cycle step)
    else if cycle.toInt % step.toInt ≠ 0 then some (.cumulatingMultiple cycle step)
    else if offset < 0 ∨ cycle ≤ offset then some (.cumulatingOffset cycle offset)
    else none
  | session gap =>
    if gap ≤ 0 then some (.sessionGap gap)
    else if offset ≠ 0 then some .sessionOffset
    else none

end Shape

namespace Policy

/-- The first fault: a duration too long, then the lateness, then the shape. -/
def flaw? (p : Policy) : Option Flaw :=
  match p.oversized with
  | some what => some (.oversized what)
  | none => if p.lateness < 0 then some (.negativeLateness p.lateness) else p.shape.flaw? p.offset

end Policy

/-- A policy without fault. -/
abbrev SoundPolicy := { p : Policy // p.flaw? = none }

namespace Policy

def check (p : Policy) : Except Flaw SoundPolicy :=
  match h : p.flaw? with
  | none => .ok ⟨p, h⟩
  | some f => .error f

/-- Only session windows merge. -/
def merges (p : Policy) : Bool :=
  match p.shape with
  | .session _ => true
  | _ => false

end Policy

end Tidemark
