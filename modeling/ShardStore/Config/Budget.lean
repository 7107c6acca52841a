/-!
How many bytes a store may hold.

Given a size in gigabytes the budget is that many gibibytes, converted to a whole number of
bytes by truncation, with negative and not-a-number sizes giving zero and sizes too large giving
the largest word. Without a size it is half the available memory, at most four fifths of the
total, and never below 256 MiB.
-/

namespace ShardStore

namespace Budget

/-- One gibibyte. -/
def gib : UInt64 := 1024 * 1024 * 1024

/-- The least budget without a configured size. -/
def floor : UInt64 := 256 * 1024 * 1024

/-- The budget for a configured size in gigabytes. -/
def ofGb (gb : Float) : UInt64 := (gb * gib.toFloat).toUInt64

/-- The budget from the machine's total and available memory. -/
def ofMemory (total available : UInt64) : UInt64 :=
  let wanted := (available.toFloat * 0.5).toUInt64
  let cap := (total.toFloat * 0.8).toUInt64
  max (min wanted cap) floor

end Budget

end ShardStore
