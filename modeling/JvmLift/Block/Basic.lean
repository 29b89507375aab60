import JvmLift.Flow.BasicBlock
import JvmLift.Stmt

/-!
Blocks of statements: what a basic block computes, with how control leaves it.
-/
namespace JvmLift

inductive Exit where
  | fall (target : BlockId)
  | goto (target : BlockId)
  | cond (test : Expr) (taken fall : BlockId)
  | switch (key : Expr) (default : BlockId) (cases : List (Int32 × BlockId))
  | leave
  | throw
  | ret
  deriving Repr

/-- Statements in order, the exit, and the operand stack left for the successors, bottom first. -/
structure Block where
  id : BlockId
  stmts : List Located
  exit : Exit
  stack : List Expr
  deriving Repr

namespace Exit

def targets : Exit → List BlockId
  | .fall t | .goto t => [t]
  | .cond _ t f => if t = f then [t] else [t, f]
  | .switch _ d cases => sortedSet (cases.map (·.2) ++ [d])
  | .leave | .throw | .ret => []

def operand? : Exit → Option Expr
  | .cond e _ _ | .switch e _ _ => some e
  | _ => none

def mapNodes (f : Expr → Expr) : Exit → Exit
  | .cond e taken other => .cond (e.mapNodes f) taken other
  | .switch e d cases => .switch (e.mapNodes f) d cases
  | x => x

/-- The exit of a block whose last instruction decides nothing. -/
def ofTerminator (stop : BlockId) : Terminator → Exit
  | .fallThrough t => .fall t
  | .jsr _ returnTo => .fall returnTo
  | .goto t => .goto t
  | .leave => .leave
  | .throw => .throw
  | .ret => .ret
  | .branch .. | .switch .. => .fall stop

end Exit

namespace Block

def succs (b : Block) : List BlockId := b.exit.targets

/-- Every expression in the block: statements, then the exit, then the stack. -/
def nodes (b : Block) : List Expr :=
  b.stmts.flatMap (·.stmt.nodes) ++ b.exit.operand?.toList.flatMap (·.nodes) ++
    b.stack.flatMap (·.nodes)

def mapNodes (f : Expr → Expr) (b : Block) : Block where
  id := b.id
  stmts := b.stmts.map fun s => s.withStmt (s.stmt.mapNodes f)
  exit := b.exit.mapNodes f
  stack := b.stack.map (·.mapNodes f)

def stop (b : Block) : Nat :=
  match b.stmts.getLast? with
  | some s => s.stop
  | none => b.id

/-- Adds a block at its place in ascending order, or replaces the one of its name. -/
def insert (b : Block) : List Block → List Block
  | [] => [b]
  | c :: rest =>
      if b.id < c.id then b :: c :: rest
      else if b.id = c.id then b :: rest
      else c :: insert b rest

def find? (blocks : List Block) (id : BlockId) : Option Block := blocks.find? (·.id == id)

end Block

end JvmLift
