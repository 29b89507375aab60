import Std.Data.TreeMap
import Std.Data.TreeSet

/-!
Flow graphs: nodes with their successors, the order of a depth-first walk, and reachability.
-/
namespace JvmLift

/-- Blocks are named by the offset of their first instruction. -/
abbrev BlockId := Nat

abbrev BlockSet := Std.TreeSet BlockId

/-- A node with its successors. Extra edges, for handlers and subroutines, count for reachability and
dominance but never form loops. -/
structure FlowNode where
  succs : List BlockId
  extra : List BlockId
  deriving DecidableEq, Repr

structure FlowGraph where
  entry : BlockId
  nodes : Std.TreeMap BlockId FlowNode
  deriving Repr

structure ListedNode where
  id : BlockId
  succs : List BlockId
  extra : Option (List BlockId)
  deriving DecidableEq, Repr

def sortedSet (ids : List BlockId) : List BlockId := (Std.TreeSet.ofList ids).toList

/-- Everything reached from `frontier` in at most `n` further steps, added to what was seen. -/
def expand (next : BlockId → List BlockId) : Nat → BlockSet → List BlockId → BlockSet
  | 0, seen, _ => seen
  | n + 1, seen, frontier =>
      let fresh : BlockSet := .ofList ((frontier.flatMap next).filter fun b => !seen.contains b)
      if fresh.isEmpty then seen else expand next n (seen.insertMany fresh.toList) fresh.toList

/-- Everything reached from `start`, itself included, in a graph of `size` nodes. -/
def closure (next : BlockId → List BlockId) (size : Nat) (start : List BlockId) : BlockSet :=
  expand next size (.ofList start) start

namespace FlowGraph

def ofNodes (entry : BlockId) (nodes : List (BlockId × FlowNode)) : FlowGraph :=
  ⟨entry, .ofList nodes⟩

/-- Adds a listed node. The successors of a node that is there already are replaced, the extra ones
only if they are listed again. -/
def insertListed (g : FlowGraph) (n : ListedNode) : FlowGraph :=
  let known := (g.nodes[n.id]?.map (·.extra)).getD []
  { g with nodes := g.nodes.insert n.id ⟨n.succs, n.extra.getD known⟩ }

def ofListed (entry : BlockId) (nodes : List ListedNode) : FlowGraph :=
  nodes.foldl insertListed ⟨entry, ∅⟩

def ids (g : FlowGraph) : List BlockId := g.nodes.keys

def isNode (g : FlowGraph) (b : BlockId) : Bool := g.nodes.contains b

def succs (g : FlowGraph) (b : BlockId) : List BlockId :=
  match g.nodes[b]? with
  | some n => n.succs
  | none => []

def allSuccs (g : FlowGraph) (b : BlockId) : List BlockId :=
  match g.nodes[b]? with
  | some n => (n.succs ++ n.extra).filter g.isNode
  | none => []

def preds (g : FlowGraph) (b : BlockId) : List BlockId :=
  (g.nodes.toList.filter (·.2.succs.contains b)).map (·.1)

def predTable (g : FlowGraph) : Std.TreeMap BlockId (List BlockId) :=
  .ofList (g.ids.map fun b => (b, g.preds b))

structure Walk where
  visited : BlockSet
  order : List BlockId

def visit (g : FlowGraph) : Nat → Walk → BlockId → Walk
  | 0, w, _ => w
  | n + 1, w, b =>
      if w.visited.contains b then w
      else
        let w := (g.allSuccs b).foldl (g.visit n) ⟨w.visited.insert b, w.order⟩
        ⟨w.visited, b :: w.order⟩

/-- Nodes reachable from the entry in reverse postorder of a depth-first walk. -/
def reversePostorder (g : FlowGraph) : List BlockId :=
  if g.isNode g.entry then (g.visit g.nodes.size ⟨∅, []⟩ g.entry).order else []

end FlowGraph

end JvmLift
