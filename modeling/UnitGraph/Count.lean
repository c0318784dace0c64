/-! # Counts

Instruction and iteration counts are 64-bit words. Sums and products that do not fit stay at the
largest count: a workload that is too large to say is as large as can be said. -/

namespace UnitGraph

abbrev Count := UInt64

namespace Count

def bound : Nat := UInt64.size

/-- The count of `n`, or the largest count if `n` does not fit. -/
def clamp (n : Nat) : Count :=
  UInt64.ofNat (min n (bound - 1))

def ofNat? (n : Nat) : Option Count :=
  if n < bound then some (UInt64.ofNat n) else none

def add (a b : Count) : Count :=
  clamp (a.toNat + b.toNat)

def mul (a b : Count) : Count :=
  clamp (a.toNat * b.toNat)

def sum (counts : List Count) : Count :=
  counts.foldl add 0

/-- Clamping changes nothing below the bound. -/
theorem toNat_clamp (n : Nat) : (clamp n).toNat = min n (bound - 1) := by
  simp only [clamp, bound, UInt64.size, UInt64.toNat_ofNat']
  omega

theorem toNat_add (a b : Count) : (add a b).toNat = min (a.toNat + b.toNat) (bound - 1) :=
  toNat_clamp _

theorem toNat_mul (a b : Count) : (mul a b).toNat = min (a.toNat * b.toNat) (bound - 1) :=
  toNat_clamp _

end Count

end UnitGraph
