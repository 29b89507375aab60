import JvmLift.Block.Step

/-!
Simulation of all blocks of a method. Blocks are simulated in reverse postorder; a stack that
differs between predecessors is kept in variables.
-/
namespace JvmLift

/-- A fault in a method, with the names that were looked up until then. -/
structure LiftFailure where
  fault : LiftFault
  asked : List String
  deriving DecidableEq, Repr

/-- For every entry of the stack a block starts with, the variable that keeps it, if any. -/
abbrev SpillVars := List (Option LocalVar)

namespace Simulation

structure Delivery where
  target : BlockId
  source : BlockId
  stack : List Expr

structure State where
  duplicates : Duplicates
  nextTemp : UInt16
  nextStack : UInt16
  blocks : List Block
  pending : List Delivery
  entries : List (BlockId × SpillVars)
  asked : List String

def State.initial : State := ⟨.empty, 0, 0, [], [], [], []⟩

def mergedType (values : List Expr) : ErasedType :=
  ((values.map (·.ty)).find? fun t => !(t == .null || t == .unknown)).getD .unknown

/-- Merges the entries of one height: kept if all predecessors are known and agree, else spilled. -/
def mergeEntry (allSeen : Bool) (nextStack : UInt16) (values : List Expr) (first : Expr) :
    Expr × Option LocalVar × UInt16 :=
  if allSeen && values.all (·.eqv first) then (first, none, nextStack)
  else
    let v := LocalVar.ofStack nextStack (mergedType values)
    (.localVar v, some v, nextStack + 1)

/-- Merges stacks of equal height entry by entry, from the bottom up. `first` is the first stack. -/
def mergeEntries (allSeen : Bool) :
    UInt16 → List (List Expr) → List Expr → List Expr × SpillVars × UInt16
  | n, _, [] => ([], [], n)
  | n, incoming, e :: rest =>
      let (value, v, n) := mergeEntry allSeen n (incoming.filterMap List.head?) e
      let (values, vs, n) := mergeEntries allSeen n (incoming.map List.tail) rest
      (value :: values, v :: vs, n)

/-- The stack a block starts with, from what its simulated predecessors leave. -/
def mergeStacks (id : BlockId) (incoming : List (List Expr)) (preds : Nat) (nextStack : UInt16) :
    Except LiftFault (List Expr × SpillVars × UInt16) :=
  match incoming with
  | [] => .ok ([], [], nextStack)
  | first :: _ =>
      match incoming.find? (·.length != first.length) with
      | some other => .error (.stackHeight id first.length other.length)
      | none => .ok (mergeEntries (preds ≤ incoming.length) nextStack incoming first)

def spills (stop : Nat) (vars : SpillVars) (stack : List Expr) : List Located :=
  (vars.zip stack).filterMap fun (v, value) =>
    v.map fun v => ⟨.store v value, stop, stop, none⟩

def appendSpills (vars : SpillVars) (stack : List Expr) (b : Block) : Block :=
  { b with stmts := b.stmts ++ spills b.stop vars stack }

/-- Runs the instructions of a block. Lookups are noted before each step. -/
def runSteps (ctx : MethodContext) :
    Frame → List String → Option Exit → List Instruction →
      Except LiftFailure (Frame × List String × Option Exit)
  | f, asked, exit, [] => .ok (f, asked, exit)
  | f, asked, _, i :: rest =>
      let asked := asked ++ Sim.lookups ctx i f
      match (Sim.step ctx i).run f with
      | .ok (exit, f) => runSteps ctx f asked exit rest
      | .error fault => .error ⟨fault, asked⟩

def caughtName (cf : ControlFlow) (handler : BlockId) : String :=
  match ((cf.handlers.filter (·.handler == handler)).map (·.catchType)).eraseDups with
  | [some name] => name
  | _ => "java/lang/Throwable"

structure Plan where
  flow : ControlFlow
  order : List BlockId
  subroutines : List BlockId

def Plan.ofFlow (cf : ControlFlow) : Plan := ⟨cf, cf.reversePostorder, cf.subroutines⟩

def Plan.isHandler (p : Plan) (b : BlockId) : Bool := p.flow.handlers.any (·.handler == b)

def Plan.predCount (p : Plan) (b : BlockId) : Nat :=
  (p.flow.preds b).countP p.order.contains

/-- The stack a block starts with: the exception in a handler, the return address in a subroutine,
else what the predecessors left, which may add spills there. -/
def enter (p : Plan) (s : State) (id : BlockId) : Except LiftFault (List Expr × State) :=
  if p.isHandler id then .ok ([.caught (caughtName p.flow id)], s)
  else if p.subroutines.contains id then .ok ([.returnAddress], s)
  else do
    let incoming := s.pending.filter (·.target == id)
    let (stack, vars, nextStack) ←
      mergeStacks id (incoming.map (·.stack)) (p.predCount id) s.nextStack
    let spill (blocks : List Block) (d : Delivery) : List Block :=
      blocks.map fun b => if b.id = d.source then appendSpills vars d.stack b else b
    return (stack, { s with
      nextStack
      blocks := incoming.foldl spill s.blocks
      pending := s.pending.filter (·.target != id)
      entries := (id, vars) :: s.entries })

/-- Hands the stack of a simulated block to its successors. One that was simulated before must have
started with the same height. -/
def deliver (p : Plan) (b : Block) : List BlockId → State → Except LiftFault State
  | [], s => .ok s
  | succ :: rest, s =>
      if !p.order.contains succ || p.isHandler succ then deliver p b rest s
      else
        match s.entries.lookup succ with
        | some vars =>
            if vars.length = b.stack.length then deliver p b rest s
            else .error (.stackHeight succ vars.length b.stack.length)
        | none => deliver p b rest { s with pending := s.pending ++ [⟨succ, b.id, b.stack⟩] }

/-- Stores into the variables of all successors that were simulated before. -/
def spillBack (entries : List (BlockId × SpillVars)) (b : Block) : Block :=
  b.succs.foldl (fun b succ =>
    match entries.lookup succ with
    | some vars => appendSpills vars b.stack b
    | none => b) b

def simulateBlock (ctx : MethodContext) (p : Plan) (s : State) (block : BasicBlock) : Except LiftFailure State := do
  let (stack, s) ← (enter p s block.id).mapError (⟨·, s.asked⟩)
  let f : Frame := ⟨s.duplicates, s.nextTemp, stack.reverse, [], block.id⟩
  let (f, asked, exit) ← runSteps ctx f s.asked none block.instructions
  let exit := exit.getD (.ofTerminator block.stop block.terminator)
  let b : Block := ⟨block.id, f.out, exit, f.stack.reverse⟩
  let s := { s with duplicates := f.duplicates, nextTemp := f.nextTemp, asked }
  let s ← (deliver p b b.succs s).mapError (⟨·, asked⟩)
  return { s with blocks := (spillBack s.entries b).insert s.blocks }

def simulateAll (ctx : MethodContext) (p : Plan) : State → List BlockId → Except LiftFailure State
  | s, [] => .ok s
  | s, id :: rest =>
      match p.flow.block? id with
      | none => simulateAll ctx p s rest
      | some block => do simulateAll ctx p (← simulateBlock ctx p s block) rest

end Simulation

/-- The reachable blocks of a method as statements, with the names that were looked up. -/
def simulate (ctx : MethodContext) (cf : ControlFlow) : Except LiftFailure (List Block × List String) := do
  let p := Simulation.Plan.ofFlow cf
  let s ← Simulation.simulateAll ctx p .initial p.order
  return ((s.duplicates.resolve s.blocks s.nextTemp).1, s.asked)

end JvmLift
