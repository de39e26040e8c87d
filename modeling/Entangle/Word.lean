/-!
# Machine integers

Shapes and qubit labels are machine integers: results of arithmetic on them are reduced to 64 bits,
read as a signed number.
-/

namespace Entangle

/-- The signed 64-bit number that an integer is reduced to. -/
def word (n : Int) : Int := n.bmod UInt64.size

end Entangle
