import JvmLift.Block.Basic
import JvmLift.Expr.Condition
import JvmLift.Flow.Loops
import JvmLift.Protection.Plan

/-!
The lie of the land for structuring: where branches meet again, what kind of loop a header starts,
and where control goes on after a protected region.
-/
namespace JvmLift

/-- What structuring looks at. `labels` are blocks that need a label in front. -/
structure Layout where
  blocks : List Block
  protection : Protection
  graph : FlowGraph
  predTable : Std.TreeMap BlockId (List BlockId)
  order : List BlockId
  loops : List Loop
  labels : List BlockId
  deriving Repr

inductive LoopForm where
  /-- Tested in front; the body starts at `inside`. -/
  | guarded (test : Expr) (inside follow : BlockId)
  /-- Tested at the end of the latch. -/
  | tested (latch : BlockId) (test : Expr) (follow : BlockId)
  | endless (follow : Option BlockId)
  deriving Repr

namespace Layout

def ofGraph (blocks : List Block) (protection : Protection) (graph : FlowGraph) (labels : List BlockId) : Layout :=
  ⟨blocks, protection, graph, graph.predTable, graph.reversePostorder, graph.naturalLoops, labels⟩

def block? (l : Layout) (b : BlockId) : Option Block := Block.find? l.blocks b

def isBlock (l : Layout) (b : BlockId) : Bool := (l.block? b).isSome

def succs (l : Layout) (b : BlockId) : List BlockId := l.graph.succs b

def preds (l : Layout) (b : BlockId) : List BlockId := l.predTable.getD b []

def loop? (l : Layout) (b : BlockId) : Option Loop := l.loops.find? (·.header == b)

/-! ### Where branches meet -/

/-- Blocks reached from `start` without going on from a bound. -/
def reach (l : Layout) (bounds : List BlockId) (start : BlockId) : BlockSet :=
  closure (fun b => if bounds.contains b then [] else l.succs b) l.blocks.length [start]

/-- Is everything reached from `start` entered only from there? Then the path ends in a return, a
throw or a jump to a bound. -/
def terminates (l : Layout) (bounds : List BlockId) (start : BlockId) : Bool :=
  let reach := l.reach bounds start
  reach.toList.all fun b => b == start || bounds.contains b || (l.preds b).all reach.contains

/-- The member of all sets that comes first in reverse postorder. -/
def firstCommon (l : Layout) : List BlockSet → Option BlockId
  | [] => none
  | first :: rest =>
      let common := first.toList.filter fun b => rest.all (·.contains b)
      (l.order.find? common.contains).or common.head?

/-- Where all sources meet; failing that, where those meet that do not terminate. -/
def merge (l : Layout) (bounds sources : List BlockId) : Option BlockId :=
  match l.firstCommon (sources.map (l.reach bounds)) with
  | some b => some b
  | none =>
      let live := sources.filter fun s => !l.terminates bounds s
      if 2 ≤ live.length ∧ live.length < sources.length then
        l.firstCommon (live.map (l.reach bounds))
      else none

/-! ### Loops -/

/-- Lowest exit of a loop; one that goes on somewhere comes before a plain return. -/
def loopExit (l : Layout) (loop : Loop) : Option BlockId :=
  let exits := sortedSet ((loop.body.flatMap l.succs).filter fun s => !loop.body.contains s)
  (exits.find? fun e => !(l.succs e).isEmpty).or exits.head?

def guard? (l : Layout) (loop : Loop) : Option LoopForm :=
  match l.block? loop.header with
  | some ⟨_, [], .cond e t f, _⟩ =>
      match loop.body.contains t, loop.body.contains f with
      | true, false => some (.guarded e t f)
      | false, true => some (.guarded e.negate f t)
      | _, _ => none
  | _ => none

def latchTest? (l : Layout) (loop : Loop) : Option LoopForm :=
  match loop.latches with
  | [latch] =>
      match l.block? latch with
      | some ⟨_, stmts, .cond e t f, _⟩ =>
          if stmts.isEmpty || (l.preds latch).length == 1 || latch == loop.header then
            if t = loop.header ∧ !loop.body.contains f then some (.tested latch e f)
            else if f = loop.header ∧ !loop.body.contains t then some (.tested latch e.negate t)
            else none
          else none
      | _ => none
  | _ => none

def loopForm (l : Layout) (loop : Loop) : LoopForm :=
  ((l.guard? loop).or (l.latchTest? loop)).getD (.endless (l.loopExit loop))

/-! ### Protected regions -/

def largerPlan (best : Option (Nat × TryPlan)) (next : Nat × TryPlan) : Option (Nat × TryPlan) :=
  match best with
  | some b => if b.2.size ≤ next.2.size then some next else some b
  | none => some next

/-- Largest region that starts at a block and is not among those done. -/
def pendingTry (l : Layout) (done : List Nat) (b : BlockId) : Option (Nat × TryPlan) :=
  let plans := l.protection.plans.zipIdx.map fun (p, i) => (i, p)
  (plans.filter fun (i, p) => p.start == b && !done.contains i).foldl largerPlan none

/-- Passes over code taken out of the flow, at most `n` ranges. -/
def passSkips (l : Layout) : Nat → BlockId → BlockId
  | 0, b => b
  | n + 1, b =>
      match l.protection.skipEnd? b with
      | some stop => if b < stop then l.passSkips n stop else b
      | none => b

def chaseSkips (l : Layout) (b : BlockId) : BlockId := l.passSkips l.protection.skipped.length b

def jumpTarget? (l : Layout) (b : BlockId) : Option BlockId :=
  match l.block? b with
  | some ⟨_, [], .goto t, []⟩ | some ⟨_, [], .fall t, []⟩ => if l.isBlock t then some t else none
  | _ => none

/-- Passes over blocks that only jump elsewhere and start nothing, at most `n` of them. -/
def passJumps (l : Layout) (done : List Nat) (bounds : List BlockId) :
    Nat → List BlockId → BlockId → BlockId
  | 0, _, b => b
  | n + 1, seen, b =>
      if seen.contains b || bounds.contains b || (l.loop? b).isSome || l.labels.contains b ||
          (l.pendingTry done b).isSome then b
      else
        match l.jumpTarget? b with
        | some t => l.passJumps done bounds n (b :: seen) t
        | none => b

def chaseJumps (l : Layout) (done : List Nat) (bounds : List BlockId) (b : BlockId) : BlockId :=
  l.passJumps done bounds l.blocks.length [] b

/-- Normal exits of a region, copies of its finalizer passed over, ascending. -/
def tryExits (l : Layout) (plan : TryPlan) : List BlockId :=
  let inside := (l.blocks.map (·.id)).filter plan.contains
  let leaving := (inside.flatMap l.succs).filter fun s => !plan.contains s
  sortedSet ((leaving.map l.chaseSkips).filter fun s =>
    !plan.contains s && !plan.catchEntries.contains s)

/-- Where control goes on after a region: the lowest exit that is not a return reached only from
inside, else an exit to a bound, else where the handlers meet. -/
def tryFollow (l : Layout) (done : List Nat) (bounds : List BlockId) (plan : TryPlan) : Option BlockId :=
  let exits := l.tryExits plan
  let isOpen (s : BlockId) : Bool :=
    !bounds.contains s && (!(l.succs s).isEmpty || 1 < (l.preds s).length)
  match exits.find? isOpen with
  | some s => some (l.chaseJumps done bounds s)
  | none =>
      match exits.find? bounds.contains with
      | some s => some s
      | none =>
          if 2 ≤ plan.catches.length then l.merge bounds plan.catchEntries else none

end Layout

end JvmLift
