/-!
# The programming clock

The programmer divides its own clock down to one of seven frequencies.  A
requested frequency selects the greatest of them that does not exceed it.  The
table is not sorted, since its index is the divider setting of the programmer.
-/

namespace IspStream.Clock

/-- The frequencies in Hz, indexed by divider setting. -/
def frequencies : List Nat :=
  [2000000, 500000, 125000, 62500, 4000000, 1000000, 250000]

/-- The divider setting, that of the lowest frequency, for a request that no
frequency serves. -/
def fallback : Nat := 3

/-- A request at least this far above every frequency selects the fallback. -/
def cutoff : Int := 8000000

/-- A divider setting with the distance from its frequency up to the request. -/
structure Choice where
  /-- The divider setting. -/
  divider : Nat
  /-- How far the request lies above the frequency. -/
  distance : Int

/-- Keeps the better of the choice so far and one entry of the table: the entry
wins if it does not exceed the request and lies strictly nearer. -/
def Choice.improve (request : Int) (choice : Choice) (entry : Nat × Nat) : Choice :=
  let distance := request - (entry.1 : Int)
  if 0 ≤ distance ∧ distance < choice.distance then ⟨entry.2, distance⟩ else choice

/-- The divider setting for a requested frequency. -/
def divider (request : Int) : Nat :=
  (frequencies.zipIdx.foldl (Choice.improve request) ⟨fallback, cutoff⟩).divider

example : divider 1000000 = 5 := by decide

example : divider 62499 = fallback := by decide

end IspStream.Clock
