import Mathlib

/-!
`flsl` and the shift of a one in `int`.
-/

namespace Hexley.Lib

def flsl (n : ℕ) : ℕ := if n = 0 then 0 else n.log2 + 1

/-- `1 << n` in `int`: undefined when the bit would leave the value bits. -/
def shiftInt (n : ℕ) : Option ℤ := if n < 31 then some ↑(2 ^ n : ℕ) else none

end Hexley.Lib
