import JvmLift.Flow.Graph

/-!
Plans of protected regions: for every region of a method, the construct it came from and the code
that belongs to each of its parts.
-/
namespace JvmLift

inductive TryShape where
  | catchOnly
  | multiCatch
  /-- The finalizer is copied at every normal exit. -/
  | finallyInlined
  | finallyEmpty
  /-- The region never completes normally, so there is no copy. -/
  | finallyNoNormalExit
  /-- A copy stands before the return of a saved value. -/
  | finallyReturnInTry
  /-- One shared subroutine and a path that throws again. -/
  | finallyJsr
  /-- The finalizer's handler also protects the catch clauses. -/
  | catchFinallyNested
  /-- Catch clauses are protected by rows of their own. -/
  | catchFinallySibling
  | catchFinallyJsr
  /-- The unlocking handler protects itself. -/
  | synchronizedDoubleExit
  | synchronizedSingleExit
  | synchronizedJsr
  /-- Handlers are kept as catch clauses. -/
  | unrecognized
  deriving DecidableEq, Repr

def TryShape.isSynchronized : TryShape → Bool
  | .synchronizedDoubleExit | .synchronizedSingleExit | .synchronizedJsr => true
  | _ => false

/-- A catch clause; an empty list of types catches everything. -/
structure CatchPlan where
  handler : BlockId
  types : List String
  deriving DecidableEq, Repr

/-- Offsets from the first to just before the second. -/
abbrev Range := Nat × Nat

def Range.contains (r : Range) (pc : Nat) : Bool := r.1 ≤ pc && pc < r.2

structure FinallyPlan where
  handler : BlockId
  exceptionSlot : UInt16
  bodyStart : Nat
  bodyStop : Nat
  /-- Copies at normal exits, taken out of the flow. -/
  copies : List Range
  /-- The subroutine, from its entry past its return. -/
  subroutine : Option Range
  deriving DecidableEq, Repr

structure TryPlan where
  start : Nat
  stop : Nat
  shape : TryShape
  catches : List CatchPlan
  cleanup : Option FinallyPlan
  lockSlot : Option UInt16
  approximate : Bool
  deriving DecidableEq, Repr

namespace TryPlan

def isInverted (p : TryPlan) : Bool := p.stop < p.start

/-- The difference of two words of 32 bits, which wraps around. -/
def size (p : TryPlan) : Nat := if p.isInverted then UInt32.size - (p.start - p.stop) else p.stop - p.start

theorem size_eq {p : TryPlan} (h : p.start ≤ p.stop) : p.size = p.stop - p.start :=
  if_neg (by simpa [isInverted] using h)

def contains (p : TryPlan) (pc : Nat) : Bool := p.start ≤ pc && pc < p.stop

def catchEntries (p : TryPlan) : List BlockId := p.catches.map (·.handler)

end TryPlan

/-- The plans of a method, smallest region first, with the code they take out of the flow. -/
structure Protection where
  plans : List TryPlan
  /-- Offsets at which blocks have to start, ascending. -/
  extraLeaders : List Nat
  skipped : List Range
  deriving DecidableEq, Repr, Inhabited

namespace Protection

def isSkipped (p : Protection) (pc : Nat) : Bool := p.skipped.any (Range.contains · pc)

def skipEnd? (p : Protection) (pc : Nat) : Option Nat :=
  (p.skipped.find? (·.1 == pc)).map (·.2)

end Protection

end JvmLift
