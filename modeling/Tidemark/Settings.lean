import Tidemark.Encoding.Compound

/-! The settings of an operator: which time drives it, how many entries it buffers, and over which
span it averages the rate of drops. -/

namespace Tidemark

inductive TimeDomain where
  /-- Watermarks move progress; clock callbacks are ignored. -/
  | event
  /-- Clock callbacks move progress; watermarks are only passed on. -/
  | processing
deriving DecidableEq, Repr

structure Settings where
  domain : TimeDomain := .event
  /-- How many entries are buffered before they are written to the store. -/
  capacity : UInt64 := 1024
  rateSpan : Span := .ofSecs 60
deriving DecidableEq, Repr

inductive SettingsFlaw where
  | noCapacity | noRateSpan
deriving DecidableEq, Repr

namespace SettingsFlaw

def message : SettingsFlaw → String
  | noCapacity => "write_buffer_capacity must be positive"
  | noRateSpan => "late_drop_rate_span must be at least 1ms"

end SettingsFlaw

namespace Settings

/-- The first fault. -/
def flaw? (s : Settings) : Option SettingsFlaw :=
  if s.capacity = 0 then some .noCapacity
  else if s.rateSpan.millis = 0 then some .noRateSpan
  else none

end Settings

/-- Settings without fault. -/
abbrev SoundSettings := { s : Settings // s.flaw? = none }

namespace Settings

def check (s : Settings) : Except SettingsFlaw SoundSettings :=
  match h : s.flaw? with
  | none => .ok ⟨s, h⟩
  | some f => .error f

end Settings

namespace Encoding

instance : Encoding TimeDomain where
  encode
    | .event => encode (0 : UInt32)
    | .processing => encode (1 : UInt32)
  decoder := variant 2 fun
    | 0 => some (pure .event)
    | 1 => some (pure .processing)
    | _ => none

instance : Encoding Settings :=
  via (fun s => (s.domain, s.capacity, s.rateSpan)) (fun q => ⟨q.1, q.2.1, q.2.2⟩)

end Encoding

end Tidemark
