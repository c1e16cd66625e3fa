/-!
# Instants and delays

Instants are nanoseconds on a monotonic clock, delays are nanoseconds. A delay
reaches the host either in whole milliseconds, rounded up from microseconds, or
in seconds and whole microseconds; both forms have a cap.
-/

namespace CallbackLoop.Time

/-- Nanoseconds in a microsecond. -/
def micro : Nat := 1000

/-- Nanoseconds in a millisecond. -/
def milli : Nat := 1000 * micro

/-- Nanoseconds in a second. -/
def second : Nat := 1000 * milli

/-- The first instant that the clock cannot represent: its seconds are signed
words of 64 bits. -/
def horizon : Nat := 1 <<< 63 * second

/-- The instant `delay` after `now`, unless it lies beyond the horizon. -/
def after? (now delay : Nat) : Option Nat :=
  if now + delay < horizon then some (now + delay) else none

/-- The largest count that fits the host's word for a number of milliseconds or
seconds. -/
def wordCap : Nat := 1 <<< 31 - 1

/-- A delay in whole milliseconds: its whole microseconds, rounded up. -/
def ceilMillis (delay : Nat) : Nat :=
  min ((delay / micro + 999) / 1000) wordCap

/-- The timeout argument of a wait in milliseconds; `-1` waits without bound. -/
def timeoutMillis : Option Nat → Int
  | none => -1
  | some delay => ceilMillis delay

/-- A delay in microseconds, made of capped seconds and the whole microseconds
of the last second. -/
def cappedMicros (delay : Nat) : Nat :=
  min (delay / second) wordCap * 1000000 + delay % second / micro

end CallbackLoop.Time
