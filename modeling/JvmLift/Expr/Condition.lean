import JvmLift.Expr.Basic

/-!
Conditions and literals: negation that is pushed into comparisons, and literals in the type their
context expects.
-/
namespace JvmLift

def LogicalOp.dual : LogicalOp → LogicalOp
  | .and => .or
  | .or => .and

namespace Expr

def negate : Expr → Expr
  | .compare op l r => .compare op.negate l r
  | .not e => e
  | .boolLit b => .boolLit (!b)
  | .logical op l r => .logical op.dual l.negate r.negate
  | e => .not e

/-- An integer literal as a literal of the type its context expects; looks into ternaries. -/
def retype (e : Expr) (t : ErasedType) : Expr :=
  match e with
  | .intLit v =>
      if t = .boolean ∧ v = 0 then .boolLit false
      else if t = .boolean ∧ v = 1 then .boolLit true
      else if t = .char ∧ 0 ≤ v.toInt ∧ v.toInt ≤ 0xFFFF then .charLit (UInt16.ofNat v.toInt.toNat)
      else .intLit v
  | .ternary c a b => if t.isIntLike then .ternary c (a.retype t) (b.retype t) else .ternary c a b
  | e => e

def zeroTest (op : CmpOp) (v : Expr) : Expr :=
  match v with
  | .cmpResult l r => .compare op l r
  | v =>
      if v.isBoolean ∧ op = .ne then v
      else if v.isBoolean ∧ op = .eq then v.negate
      else .compare op v (retype (.intLit 0) v.ty)

end Expr

end JvmLift
