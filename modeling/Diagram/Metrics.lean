import Diagram.Decimal.Layout
import Diagram.NameMap

/-!
# Metrics

What is measured of compiles: how many had which result, and how long they took.  Durations are
counted in buckets, and each bucket counts all durations up to its bound.
-/

namespace Diagram

/-- The measurements, and where they are served. -/
structure Metrics where
  listen : String
  /-- How many compiles had each result. -/
  totals : NameMap Nat
  /-- How long compiles took, in seconds. -/
  durations : List Float

namespace Metrics

/-- The address that metrics are served on unless another one is given. -/
def defaultListen : String := "127.0.0.1:9233"

def start (listen : String) : Metrics :=
  ⟨if listen.isEmpty then defaultListen else listen, .empty, []⟩

def totalName : String := "figura_compile_total"

def secondsName : String := "figura_compile_seconds"

def startTimeName : String := "figura_process_start_time_seconds"

def names : List String := [totalName, secondsName, startTimeName]

/-- Registers metrics beside those that a registry has; a name can be registered only once. -/
def register? (registry : List String) : Option (List String) :=
  if names.any registry.contains then none else some (registry ++ names)

def count (m : Metrics) (result : String) : Metrics :=
  { m with totals := m.totals.insert result ((m.totals.get? result).getD 0 + 1) }

def observe (m : Metrics) (seconds : Float) : Metrics :=
  { m with durations := seconds :: m.durations }

/-- The bounds of the buckets: each is four times the one before it. -/
def bounds : List Float :=
  (List.range 8).map fun k => 0.0005 * Float.ofNat (Nat.pow 4 k)

def buckets (m : Metrics) : List (Float × Nat) :=
  bounds.map fun bound => (bound, m.durations.countP (· ≤ bound))

def totalText (n : Nat) : String :=
  Decimal.Layout.compact.text (Float.ofNat n)

end Metrics

end Diagram
