import JvmLift.Protection.Plan
import JvmLift.Stmt

/-!
Structured statements: trees of the control constructs that a programmer writes.
-/
namespace JvmLift

/-- What a switch ranges over; an enum is given by its internal name. -/
inductive SwitchKind where
  | int
  | enum (name : String)
  | string
  deriving DecidableEq, Repr

inductive CaseLabel where
  | int (value : Int32)
  | string (text : String)
  | enum (constant : String)
  deriving DecidableEq, Repr

/-- What stands in front of the body of a switch arm, and whether the body runs on into the next. -/
structure Arm where
  labels : List CaseLabel
  isDefault : Bool
  fallsThrough : Bool
  deriving DecidableEq, Repr

/-- What stands in front of the body of a catch clause: several types for a multi-catch, none for a
catch-all. -/
structure Clause where
  types : List String
  var : LocalVar
  deriving DecidableEq, Repr

/-- A structured statement. `label` is a place that a `goto` leads to, where no construct fits. -/
inductive Tree where
  | simple (s : Located)
  | declare (var : LocalVar) (init : Option Expr) (line : Option UInt16)
  | ifElse (cond : Expr) (thenBody : List Tree) (elseBody : Option (List Tree))
  | whileLoop (cond : Expr) (body : List Tree)
  | doWhile (body : List Tree) (cond : Expr)
  | forLoop (init : Option Tree) (cond : Expr) (update : Option Tree) (body : List Tree)
  | forEach (var : LocalVar) (iterable : Expr) (body : List Tree)
  | switch (kind : SwitchKind) (key : Expr) (arms : List (Arm × List Tree))
  | tryCatch (shape : TryShape) (body : List Tree) (clauses : List (Clause × List Tree))
      (cleanup : Option (List Tree))
  | synchronized (lock : Expr) (body : List Tree)
  | labeled (name : String) (body : Tree)
  | breakTo (name : Option String)
  | continueTo (name : Option String)
  | label (name : String)
  | goto (name : String)
  | comment (text : String)
  deriving Repr

/-- A structured method body, approximate if it has jumps or a protected region of no known shape. -/
structure MethodBody where
  stmts : List Tree
  approximate : Bool
  warnings : List String
  deriving Repr

namespace Tree

def synthetic (s : Stmt) : Tree := .simple (.synthetic s)

def stmt? : Tree → Option Stmt
  | .simple s => some s.stmt
  | _ => none

def store? : Tree → Option (LocalVar × Expr)
  | .simple ⟨.store v value, _, _, _⟩ => some (v, value)
  | _ => none

def children : Tree → List (List Tree)
  | .ifElse _ t e => t :: e.toList
  | .whileLoop _ b | .doWhile b _ | .forLoop _ _ _ b | .forEach _ _ b | .synchronized _ b => [b]
  | .switch _ _ arms => arms.map (·.2)
  | .tryCatch _ b clauses cleanup => b :: clauses.map (·.2) ++ cleanup.toList
  | .labeled _ b => b.children
  | _ => []

/-- Expressions that belong to the node itself. The parts of a `for` and the body of a labeled
statement are nodes of their own. -/
def ownExprs : Tree → List Expr
  | .simple s => s.stmt.operands
  | .declare _ init _ => init.toList
  | .ifElse e _ _ | .whileLoop e _ | .doWhile _ e | .forLoop _ e _ _ | .forEach _ e _
  | .switch _ e _ | .synchronized e _ => [e]
  | _ => []

def ownNodes (t : Tree) : List Expr := t.ownExprs.flatMap (·.nodes)

/-- Maps the expressions of a statement, of the parts of a `for`, and of what a label names. -/
def mapOwn (f : Expr → Expr) : Tree → Tree
  | .simple s => .simple (s.withStmt (s.stmt.mapNodes f))
  | .declare v init line => .declare v (init.map (·.mapNodes f)) line
  | .ifElse e t b => .ifElse (e.mapNodes f) t b
  | .whileLoop e b => .whileLoop (e.mapNodes f) b
  | .doWhile b e => .doWhile b (e.mapNodes f)
  | .forLoop none e none b => .forLoop none (e.mapNodes f) none b
  | .forLoop (some i) e none b => .forLoop (some (i.mapOwn f)) (e.mapNodes f) none b
  | .forLoop none e (some u) b => .forLoop none (e.mapNodes f) (some (u.mapOwn f)) b
  | .forLoop (some i) e (some u) b =>
      .forLoop (some (i.mapOwn f)) (e.mapNodes f) (some (u.mapOwn f)) b
  | .forEach v e b => .forEach v (e.mapNodes f) b
  | .switch k e arms => .switch k (e.mapNodes f) arms
  | .synchronized e b => .synchronized (e.mapNodes f) b
  | .labeled name b => .labeled name (b.mapOwn f)
  | t => t

def kindName : Tree → String
  | .simple _ => "Simple"
  | .declare .. => "Declare"
  | .ifElse .. => "If"
  | .whileLoop .. => "While"
  | .doWhile .. => "DoWhile"
  | .forLoop .. => "For"
  | .forEach .. => "ForEach"
  | .switch .. => "Switch"
  | .tryCatch .. => "Try"
  | .synchronized .. => "Synchronized"
  | .labeled .. => "Labeled"
  | .breakTo _ => "Break"
  | .continueTo _ => "Continue"
  | .label _ => "Label"
  | .goto _ => "Goto"
  | .comment _ => "Comment"

end Tree

end JvmLift
