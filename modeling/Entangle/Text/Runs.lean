/-!
# Runs of characters

A set of characters as a table of runs: the first and the last code point of each, in order.
-/

namespace Entangle.Text

abbrev Runs : Type := Array (Nat × Nat)

/-- Some run of the table reaches over the character. -/
def Runs.hold (runs : Runs) (c : Char) : Bool :=
  runs.any fun run => decide (run.1 ≤ c.toNat) && decide (c.toNat ≤ run.2)

end Entangle.Text
