/-! The time line: 64-bit milliseconds. Arithmetic that may leave the line goes through the
integers, and either stops at the ends or is refused. -/

namespace Tidemark

/-- Milliseconds since the epoch. -/
abbrev Timestamp := Int64

namespace Timestamp

/-- The first instant. As a progress value it means that nothing was announced yet. -/
def first : Timestamp := Int64.minValue

/-- The last instant. -/
def last : Timestamp := Int64.maxValue

/-- Integers that are instants of the line. -/
def OnLine (n : Int) : Prop := first.toInt ≤ n ∧ n ≤ last.toInt

instance (n : Int) : Decidable (OnLine n) := inferInstanceAs (Decidable (_ ∧ _))

/-- The instant nearest to `n`. -/
def nearest (n : Int) : Timestamp := Int64.ofIntClamp n

/-- `t` moved by `d` milliseconds, stopping at the ends of the line. -/
def shift (t d : Timestamp) : Timestamp := nearest (t.toInt + d.toInt)

theorem onLine_toInt (t : Timestamp) : OnLine t.toInt :=
  ⟨Int64.minValue_le_toInt t, Int64.toInt_le t⟩

theorem toInt_nearest {n : Int} (h : OnLine n) : (nearest n).toInt = n :=
  Int64.toInt_ofIntClamp h.1 h.2

end Timestamp

/-- A clock that moves only when it is told to. The clock of a machine is left out: what it shows is
handed in wherever the time is read. -/
structure ManualClock where
  now : Timestamp
deriving DecidableEq, Repr

namespace ManualClock

def set (_ : ManualClock) (t : Timestamp) : ManualClock := ⟨t⟩

/-- Adding wraps around the ends of the line. -/
def advance (c : ManualClock) (d : Int64) : ManualClock := ⟨c.now + d⟩

end ManualClock

end Tidemark
