/-!
Floating-point constants by their IEEE 754 bit patterns. Equality of values is `eqv`: a NaN differs
from everything and the two zeros agree.
-/
namespace JvmLift

structure Single where
  bits : UInt32
  deriving DecidableEq, Repr

structure Double where
  bits : UInt64
  deriving DecidableEq, Repr

namespace Single

def magnitude (x : Single) : Nat := x.bits.toNat % 0x80000000

def isNaN (x : Single) : Bool := 0x7F800000 < x.magnitude

def eqv (x y : Single) : Bool :=
  !x.isNaN && !y.isNaN && (x.bits == y.bits || (x.magnitude == 0 && y.magnitude == 0))

/-- The three constants that have an instruction of their own. -/
def ofFin3 (n : Fin 3) : Single :=
  match n with
  | 0 => ⟨0⟩
  | 1 => ⟨0x3F800000⟩
  | 2 => ⟨0x40000000⟩

end Single

namespace Double

def magnitude (x : Double) : Nat := x.bits.toNat % 0x8000000000000000

def isNaN (x : Double) : Bool := 0x7FF0000000000000 < x.magnitude

def eqv (x y : Double) : Bool :=
  !x.isNaN && !y.isNaN && (x.bits == y.bits || (x.magnitude == 0 && y.magnitude == 0))

def ofFin2 (n : Fin 2) : Double :=
  match n with
  | 0 => ⟨0⟩
  | 1 => ⟨0x3FF0000000000000⟩

end Double

end JvmLift
