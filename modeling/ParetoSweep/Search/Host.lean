/-!
# The machine a search runs on

A search looks at three things outside of its problem and its configuration. They are given as a value, so that the
result of a search is a function.
-/

namespace ParetoSweep

/-- What the machine provides. -/
structure Host where
  /-- How many assignments fit into memory. -/
  capacity : Nat
  /-- How many workers there are unless the configuration asks for a number. -/
  workers : Nat
  /-- The seed that is taken unless the configuration gives one. -/
  seed : UInt64

namespace Host

/-- A machine that can reserve 128 TiB, of which an assignment takes 24 bytes. -/
def standard : Host where
  capacity := 140737488355328 / 24
  workers := 1
  seed := 0

end Host
end ParetoSweep
