import JvmLift.Flow.Dominators

/-!
Dominance as a relation between nodes, and natural loops.
-/
namespace JvmLift

/-- A natural loop: its header and every node that reaches a latch without passing the header. -/
structure Loop where
  header : BlockId
  latches : List BlockId
  /-- Ascending; the header is among them. -/
  body : List BlockId
  deriving DecidableEq, Repr

namespace FlowGraph

def dominanceTable (g : FlowGraph) : List (BlockId × List BlockId) :=
  let doms := g.dominators
  g.ids.map fun a => (a, g.ids.filter fun b => doms.dominates a b = some true)

def immediateDominators (g : FlowGraph) : List (BlockId × BlockId) := g.dominators.toList

def latches (g : FlowGraph) (doms : DomTable) (order : List BlockId) (h : BlockId) : List BlockId :=
  order.flatMap fun b =>
    if doms.dominates h b = some true then ((g.succs b).filter (· == h)).map fun _ => b else []

/-- Natural loops by ascending header. Latches are in reverse postorder. -/
def naturalLoops (g : FlowGraph) : List Loop :=
  let order := g.reversePostorder
  let doms := g.dominators
  let preds := g.predTable
  g.ids.filterMap fun h =>
    let latches := g.latches doms order h
    if latches.isEmpty then none
    else
      let next (b : BlockId) := (preds.getD b []).filter (· ≠ h)
      let inside := closure next g.nodes.size (latches.filter (· ≠ h)).eraseDups
      some ⟨h, latches, g.ids.filter fun b => b == h || inside.contains b⟩

end FlowGraph

end JvmLift
