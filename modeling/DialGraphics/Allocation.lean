import DialGraphics.Bytes.Basic
import DialGraphics.DecodeError

/-!
# Allocation

How far addresses reach. A buffer that no device can hold is refused before it is made.
-/

namespace DialGraphics

/-- The number of byte positions that a 64-bit address tells apart. -/
def addressSpace : Nat := 18446744073709551616

/-- The size from which on a buffer cannot be had, two to the power 48. -/
def allocationLimit : Nat := 281474976710656

def allocate (n : Nat) : Except DecodeError Bytes :=
  if allocationLimit ≤ n then .error .outOfMemory else .ok (List.replicate n 0)

end DialGraphics
