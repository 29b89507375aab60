import JvmLift.Tree.Traverse

/-!
Variables of a method body: what identifies them and how often they are read and written.
-/
namespace JvmLift

structure VarKey where
  origin : VarOrigin
  index : UInt16
  name : Option String
  deriving DecidableEq, Repr

def LocalVar.key (v : LocalVar) : VarKey := ⟨v.origin, v.index, v.name⟩

def VarOrigin.rank : VarOrigin → Nat
  | .slot => 0
  | .stack => 1
  | .temp => 2

def VarKey.nameLE : Option String → Option String → Bool
  | none, _ => true
  | some _, none => false
  | some a, some b => decide (a ≤ b)

def VarKey.le (a b : VarKey) : Bool :=
  if a.origin.rank ≠ b.origin.rank then decide (a.origin.rank < b.origin.rank)
  else if a.index ≠ b.index then decide (a.index < b.index)
  else VarKey.nameLE a.name b.name

namespace Tree

def ownReads (t : Tree) : List LocalVar :=
  t.ownNodes.filterMap fun
    | .localVar v => some v
    | _ => none

def ownWrites : Tree → List LocalVar
  | .simple s => s.stmt.written?.toList
  | .declare v (some _) _ => [v]
  | .forEach v _ _ => [v]
  | .tryCatch _ _ clauses _ => clauses.map (·.1.var)
  | _ => []

def countOwnReads (t : Tree) (v : LocalVar) : Nat := t.ownReads.countP (·.same v)

end Tree

structure VarUses where
  readKeys : List VarKey
  writtenKeys : List VarKey
  deriving Repr

namespace VarUses

def ofStmts (stmts : List Tree) : VarUses :=
  let nodes := Tree.nodesList stmts
  ⟨nodes.flatMap fun t => t.ownReads.map (·.key), nodes.flatMap fun t => t.ownWrites.map (·.key)⟩

def reads (u : VarUses) (v : LocalVar) : Nat := u.readKeys.count v.key

def writes (u : VarUses) (v : LocalVar) : Nat := u.writtenKeys.count v.key

end VarUses

end JvmLift
