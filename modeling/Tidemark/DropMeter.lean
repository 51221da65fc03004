import Tidemark.Time.Span

/-! Counting dropped records: how many there were, and how many of late, in buckets of one second.
Also how far progress lags behind the clock. -/

namespace Tidemark

/-- The drops of one second, from its first millisecond on. Starts, ends and horizons are integers
here. They fit 64 bits while marks and rates keep a second away from either end of the time line and
the span away from its first instant; a meter of 64-bit numbers may do otherwise beyond that. -/
structure Bucket where
  start : Int
  drops : Nat
deriving DecidableEq, Repr

namespace Bucket

/-- The width of a bucket in milliseconds. -/
def width : Int := 1000

/-- Some instant of the bucket lies after `horizon`. -/
def recent (horizon : Int) (b : Bucket) : Bool := horizon < b.start + width

end Bucket

structure DropMeter where
  /-- The milliseconds that a rate looks back over, at least one. -/
  span : Int64
  total : Nat := 0
  /-- Oldest first. -/
  buckets : List Bucket := []
deriving DecidableEq, Repr

namespace DropMeter

/-- The span's milliseconds are cut to 64 bits. -/
def ofSpan (d : Span) : DropMeter := { span := max 1 (.ofNat d.millis) }

/-- Count a drop in the bucket that starts at `start`. -/
def record (start : Int) : List Bucket → List Bucket
  | [] => [⟨start, 1⟩]
  | [b] => if b.start = start then [{ b with drops := b.drops + 1 }] else [b, ⟨start, 1⟩]
  | b :: bs => b :: record start bs

/-- Where the span that ends at `now` begins. -/
def horizon (m : DropMeter) (now : Timestamp) : Int := now.toInt - m.span.toInt

/-- Count a drop at `now`, and forget the oldest buckets that lie before the span. -/
def mark (m : DropMeter) (now : Timestamp) : DropMeter :=
  let bucket := now.toInt - now.toInt % Bucket.width
  { m with
    total := m.total + 1
    buckets := (record bucket m.buckets).dropWhile (!Bucket.recent (m.horizon now) ·) }

/-- The drops of the span that ends at `now`. -/
def recentDrops (m : DropMeter) (now : Timestamp) : Nat :=
  (m.buckets.filter (Bucket.recent (m.horizon now))).foldl (· + ·.drops) 0

/-- The drops per second over the span that ends at `now`. -/
def rate (m : DropMeter) (now : Timestamp) : Float :=
  (UInt64.ofNat (m.recentDrops now)).toFloat * 1000.0 / m.span.toFloat

end DropMeter

/-- How far progress lies behind the clock: zero before any progress and before the epoch. -/
def progressLag (now : Timestamp) (progress : Option Timestamp) : Int64 :=
  match progress with
  | none => 0
  | some p => if p < 0 then 0 else max 0 (Timestamp.nearest (now.toInt - p.toInt))

end Tidemark
