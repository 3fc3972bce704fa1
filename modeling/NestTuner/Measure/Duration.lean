import NestTuner.Decimal.Text
import NestTuner.Word

/-!
Spans of time in nanoseconds, of fewer than `2 ^ 64` seconds.
-/

namespace NestTuner

structure Duration where
  nanos : Nat
  deriving DecidableEq

namespace Duration

def zero : Duration := ⟨0⟩

def perSecond : Nat := 1000000000

/-- A duration in range. -/
def ofNanos (nanos : Nat) : Checked Duration :=
  if nanos < Word.count * perSecond then .ok ⟨nanos⟩ else .error .overflow

/-- Seconds and nanoseconds, the latter carried over into seconds. -/
def ofParts (seconds nanos : Nat) : Checked Duration :=
  ofNanos (seconds * perSecond + nanos)

def ofMillis (millis : Nat) : Duration :=
  ⟨millis * 1000000⟩

def seconds (d : Duration) : Nat :=
  d.nanos / perSecond

/-- The nanoseconds beyond whole seconds. -/
def subsecond (d : Duration) : Nat :=
  d.nanos % perSecond

/-- Whole milliseconds, within a word. -/
def millis (d : Duration) : Nat :=
  d.nanos / 1000000 % Word.count

def add (a b : Duration) : Checked Duration :=
  ofNanos (a.nanos + b.nanos)

/-- The time since an earlier reading. -/
def since (later earlier : Duration) : Duration :=
  ⟨later.nanos - earlier.nanos⟩

/-- A fraction of a duration, rounded down to nanoseconds. -/
def div (d : Duration) (n : Nat) : Checked Duration :=
  if n == 0 then .error .zeroDivisor else .ok ⟨d.nanos / n⟩

def le (a b : Duration) : Bool :=
  a.nanos ≤ b.nanos

/-- Seconds as a double: whole seconds and the rest are converted apart. -/
def toSeconds (d : Duration) : Float :=
  (UInt64.ofNat d.seconds).toFloat + (UInt64.ofNat d.subsecond).toFloat / 1e9

/-- Milliseconds as a double. -/
def toMillis (d : Duration) : Float :=
  d.toSeconds * 1000.0

/-- Drops the zeros at the end of a fraction, and the point of a fraction without digits. -/
def trimFraction (text : String) : String :=
  if text.contains '.' then
    String.ofList (((text.toList.reverse.dropWhile (· == '0')).dropWhile (· == '.')).reverse)
  else text

/-- The number in the largest of seconds, milliseconds, microseconds and nanoseconds that does not
exceed the duration. -/
def text (d : Duration) : String :=
  if d.nanos ≥ 1000000000 then trimFraction (Decimal.withPoint d.nanos 9) ++ "s"
  else if d.nanos ≥ 1000000 then trimFraction (Decimal.withPoint d.nanos 6) ++ "ms"
  else if d.nanos ≥ 1000 then trimFraction (Decimal.withPoint d.nanos 3) ++ "µs"
  else d.nanos.repr ++ "ns"

end Duration

end NestTuner
