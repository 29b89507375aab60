import JvmLift.Expr.Basic

/-!
Traversals of expressions: the list of nodes, mapping from the leaves up, and equality.
-/
namespace JvmLift.Expr

mutual

/-- The expression and everything inside it, outermost first. -/
def nodes : Expr → List Expr
  | .binary op t l r => .binary op t l r :: (l.nodes ++ r.nodes)
  | .neg e => .neg e :: e.nodes
  | .not e => .not e :: e.nodes
  | .logical op l r => .logical op l r :: (l.nodes ++ r.nodes)
  | .compare op l r => .compare op l r :: (l.nodes ++ r.nodes)
  | .cmpResult l r => .cmpResult l r :: (l.nodes ++ r.nodes)
  | .cast t e => .cast t e :: e.nodes
  | .instanceOf e t => .instanceOf e t :: e.nodes
  | .ternary c a b => .ternary c a b :: (c.nodes ++ a.nodes ++ b.nodes)
  | .fieldGet owner name t object => .fieldGet owner name t object :: nodesOption object
  | .call kind owner name d receiver args =>
      .call kind owner name d receiver args :: (nodesOption receiver ++ nodesList args)
  | .dynamic name d bootstrap args => .dynamic name d bootstrap args :: nodesList args
  | .new name d args => .new name d args :: nodesList args
  | .newArray t dims => .newArray t dims :: nodesList dims
  | .arrayLength e => .arrayLength e :: e.nodes
  | .arrayLoad a i t => .arrayLoad a i t :: (a.nodes ++ i.nodes)
  | e => [e]

def nodesOption : Option Expr → List Expr
  | none => []
  | some e => e.nodes

def nodesList : List Expr → List Expr
  | [] => []
  | e :: es => e.nodes ++ nodesList es

end

mutual

/-- Maps the operands, then the node built from them. -/
def mapNodes (f : Expr → Expr) : Expr → Expr
  | .binary op t l r => f (.binary op t (l.mapNodes f) (r.mapNodes f))
  | .neg e => f (.neg (e.mapNodes f))
  | .not e => f (.not (e.mapNodes f))
  | .logical op l r => f (.logical op (l.mapNodes f) (r.mapNodes f))
  | .compare op l r => f (.compare op (l.mapNodes f) (r.mapNodes f))
  | .cmpResult l r => f (.cmpResult (l.mapNodes f) (r.mapNodes f))
  | .cast t e => f (.cast t (e.mapNodes f))
  | .instanceOf e t => f (.instanceOf (e.mapNodes f) t)
  | .ternary c a b => f (.ternary (c.mapNodes f) (a.mapNodes f) (b.mapNodes f))
  | .fieldGet owner name t object => f (.fieldGet owner name t (mapNodesOption f object))
  | .call kind owner name d receiver args =>
      f (.call kind owner name d (mapNodesOption f receiver) (mapNodesList f args))
  | .dynamic name d bootstrap args => f (.dynamic name d bootstrap (mapNodesList f args))
  | .new name d args => f (.new name d (mapNodesList f args))
  | .newArray t dims => f (.newArray t (mapNodesList f dims))
  | .arrayLength e => f (.arrayLength (e.mapNodes f))
  | .arrayLoad a i t => f (.arrayLoad (a.mapNodes f) (i.mapNodes f) t)
  | e => f e

def mapNodesOption (f : Expr → Expr) : Option Expr → Option Expr
  | none => none
  | some e => some (e.mapNodes f)

def mapNodesList (f : Expr → Expr) : List Expr → List Expr
  | [] => []
  | e :: es => e.mapNodes f :: mapNodesList f es

end

mutual

/-- Equality of expressions, where floating-point literals compare as values. -/
def eqv : Expr → Expr → Bool
  | .intLit a, .intLit b => a == b
  | .longLit a, .longLit b => a == b
  | .floatLit a, .floatLit b => a.eqv b
  | .doubleLit a, .doubleLit b => a.eqv b
  | .boolLit a, .boolLit b => a == b
  | .charLit a, .charLit b => a == b
  | .stringLit a, .stringLit b => a == b
  | .classLit a, .classLit b => a == b
  | .nullLit, .nullLit => true
  | .thisRef, .thisRef => true
  | .localVar a, .localVar b => a == b
  | .caught a, .caught b => a == b
  | .returnAddress, .returnAddress => true
  | .dupLoad a, .dupLoad b => a == b
  | .binary op t l r, .binary op' t' l' r' => op == op' && t == t' && l.eqv l' && r.eqv r'
  | .neg e, .neg e' => e.eqv e'
  | .not e, .not e' => e.eqv e'
  | .logical op l r, .logical op' l' r' => op == op' && l.eqv l' && r.eqv r'
  | .compare op l r, .compare op' l' r' => op == op' && l.eqv l' && r.eqv r'
  | .cmpResult l r, .cmpResult l' r' => l.eqv l' && r.eqv r'
  | .cast t e, .cast t' e' => t == t' && e.eqv e'
  | .instanceOf e t, .instanceOf e' t' => e.eqv e' && t == t'
  | .ternary c a b, .ternary c' a' b' => c.eqv c' && a.eqv a' && b.eqv b'
  | .fieldGet o n t e, .fieldGet o' n' t' e' => o == o' && n == n' && t == t' && eqvOption e e'
  | .call k o n d r as, .call k' o' n' d' r' as' =>
      k == k' && o == o' && n == n' && d == d' && eqvOption r r' && eqvList as as'
  | .dynamic n d b as, .dynamic n' d' b' as' => n == n' && d == d' && b == b' && eqvList as as'
  | .new n d as, .new n' d' as' => n == n' && d == d' && eqvList as as'
  | .uninitNew n a, .uninitNew n' a' => n == n' && a == a'
  | .newArray t ds, .newArray t' ds' => t == t' && eqvList ds ds'
  | .arrayLength e, .arrayLength e' => e.eqv e'
  | .arrayLoad a i t, .arrayLoad a' i' t' => a.eqv a' && i.eqv i' && t == t'
  | .unresolved a, .unresolved b => a == b
  | _, _ => false

def eqvOption : Option Expr → Option Expr → Bool
  | none, none => true
  | some a, some b => a.eqv b
  | _, _ => false

def eqvList : List Expr → List Expr → Bool
  | [], [] => true
  | a :: as, b :: bs => a.eqv b && eqvList as bs
  | _, _ => false

end

def hasSideEffects (e : Expr) : Bool := e.nodes.any isEffect

def isReadOf (v : LocalVar) : Expr → Bool
  | .localVar w => w.same v
  | _ => false

def countReads (e : Expr) (v : LocalVar) : Nat := e.nodes.countP (isReadOf v)

def reads (e : Expr) (v : LocalVar) : Bool := 0 < e.countReads v

def replaceRead (v : LocalVar) (value : Expr) (e : Expr) : Expr :=
  if isReadOf v e then value else e

def substitute (e : Expr) (v : LocalVar) (value : Expr) : Expr := e.mapNodes (replaceRead v value)

end JvmLift.Expr
