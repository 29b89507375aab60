import JvmLift.Expr.Traverse

/-!
Simple statements, and statements with the code they were built from.
-/
namespace JvmLift

/-- A statement without control flow of its own inside it. `dupStore` marks the place where a
duplicated value is computed. -/
inductive Stmt where
  | store (var : LocalVar) (value : Expr)
  | fieldStore (owner name : String) (ty : ErasedType) (object : Option Expr) (value : Expr)
  | arrayStore (array index value : Expr)
  | expr (e : Expr)
  | increment (var : LocalVar) (amount : Int32)
  | leave (value : Option Expr)
  | throw (e : Expr)
  | monitorEnter (e : Expr)
  | monitorExit (e : Expr)
  | dupStore (id : Nat)
  deriving Repr

/-- A statement with the offsets it covers and its best known line. -/
structure Located where
  stmt : Stmt
  start : Nat
  stop : Nat
  line : Option UInt16
  deriving Repr

namespace Stmt

def operands : Stmt → List Expr
  | .store _ value => [value]
  | .fieldStore _ _ _ object value => object.toList ++ [value]
  | .arrayStore array index value => [array, index, value]
  | .expr e | .throw e | .monitorEnter e | .monitorExit e => [e]
  | .leave value => value.toList
  | .increment .. | .dupStore _ => []

def nodes (s : Stmt) : List Expr := s.operands.flatMap (·.nodes)

def mapNodes (f : Expr → Expr) : Stmt → Stmt
  | .store v value => .store v (value.mapNodes f)
  | .fieldStore owner name t object value =>
      .fieldStore owner name t (object.map (·.mapNodes f)) (value.mapNodes f)
  | .arrayStore array index value =>
      .arrayStore (array.mapNodes f) (index.mapNodes f) (value.mapNodes f)
  | .expr e => .expr (e.mapNodes f)
  | .throw e => .throw (e.mapNodes f)
  | .monitorEnter e => .monitorEnter (e.mapNodes f)
  | .monitorExit e => .monitorExit (e.mapNodes f)
  | .leave value => .leave (value.map (·.mapNodes f))
  | .increment v amount => .increment v amount
  | .dupStore id => .dupStore id

def written? : Stmt → Option LocalVar
  | .store v _ | .increment v _ => some v
  | _ => none

/-- Does the statement read the variable? An increment reads what it writes. -/
def reads (s : Stmt) (v : LocalVar) : Bool :=
  (match s with
    | .increment w _ => w.same v
    | _ => false) || s.nodes.any (Expr.isReadOf v)

def isTerminal : Stmt → Bool
  | .leave _ | .throw _ => true
  | _ => false

end Stmt

namespace Located

def synthetic (s : Stmt) : Located := ⟨s, 0, 0, none⟩

def withStmt (l : Located) (s : Stmt) : Located := { l with stmt := s }

end Located

end JvmLift
