import JvmLift.Block.Fold
import JvmLift.Structure.Walk

/-!
Structured method bodies from blocks.
-/
namespace JvmLift

namespace Structure

/-- Blocks that keep their identity when conditions are folded. -/
def keptBlocks (cf : ControlFlow) (p : Protection) : List BlockId :=
  cf.handlers.flatMap (fun e => [e.start, e.stop, e.handler]) ++
    p.plans.flatMap (fun plan =>
      [plan.start, plan.stop] ++ plan.catchEntries ++
        plan.cleanup.toList.flatMap fun f => [f.handler, f.bodyStart, f.bodyStop]) ++
    p.skipped.flatMap (fun r => [r.1, r.2]) ++ cf.subroutines

def graphOf (cf : ControlFlow) (blocks : List Block) : FlowGraph :=
  let isBlock (b : BlockId) : Bool := blocks.any (·.id == b)
  .ofNodes cf.entry (blocks.map fun b =>
    let succs := b.succs.filter isBlock
    (b.id, ⟨succs, (cf.allSuccs b.id).filter fun s => isBlock s && !succs.contains s⟩))

def bodyOf (written : List Tree × Walk.State) : MethodBody :=
  ⟨written.1, written.2.approximate, written.2.warnings⟩

def folded (cf : ControlFlow) (blocks : List Block) (p : Protection) (fold : Bool) : List Block :=
  if fold then (foldConditions blocks (keptBlocks cf p)).1 else blocks

/-- The first walk and the last one. When the first leaves jumps behind, it is repeated with a label in front of
every block that they lead to. -/
def walks (cf : ControlFlow) (blocks : List Block) (p : Protection) (fold : Bool) :
    (List Tree × Walk.State) × (List Tree × Walk.State) :=
  let blocks := folded cf blocks p fold
  let layout := Layout.ofGraph blocks p (graphOf cf blocks) []
  let first := Walk.run layout cf.entry
  (first, if first.2.gotos.isEmpty then first else Walk.run { layout with labels := first.2.gotos } cf.entry)

end Structure

/-- Structures one method, unless a walk breaks off. -/
def structureMethod? (cf : ControlFlow) (blocks : List Block) (p : Protection) (fold : Bool) : Option MethodBody :=
  let (first, last) := Structure.walks cf blocks p fold
  if first.2.breaksOff p || last.2.breaksOff p then none else some (Structure.bodyOf last)

/-- The same with walks that go to the end. -/
def structureMethod (cf : ControlFlow) (blocks : List Block) (p : Protection) (fold : Bool) : MethodBody :=
  Structure.bodyOf (Structure.walks cf blocks p fold).2

end JvmLift
