import JvmLift.Flow.Graph

/-!
Dominators. A table of immediate dominators is refined pass by pass, in reverse postorder, until a
pass changes nothing. A loop that is not over after the steps it is given has no result.
-/
namespace JvmLift

/-- Immediate dominators as far as they are known. The entry is its own. -/
abbrev DomTable := Std.TreeMap BlockId BlockId

namespace DomTable

/-- Goes up from two nodes until they meet, one step at a time and from the one of higher rank. -/
def meet (doms : DomTable) (rank : BlockId → Nat) : Nat → BlockId → BlockId → Option BlockId
  | 0, _, _ => none
  | n + 1, a, b =>
      let (a', b') := if rank b < rank a then (doms.getD a a, b) else (a, doms.getD b b)
      if a = b ∨ (a', b') = (a, b) then some a else doms.meet rank n a' b'

def climb (doms : DomTable) (a : BlockId) : Nat → BlockId → Option Bool
  | 0, _ => none
  | n + 1, b =>
      if a = b then some true
      else
        match doms[b]? with
        | some up => if up = b then some false else doms.climb a n up
        | none => some false

def dominates (doms : DomTable) (a b : BlockId) : Option Bool := doms.climb a (doms.size + 1) b

end DomTable

structure DomPass where
  doms : DomTable
  changed : Bool

namespace DomPass

/-- Moves `b` below the place where those of its predecessors meet that are in the table. -/
def refine (rank : BlockId → Nat) (steps : Nat) (preds : BlockId → List BlockId) (p : DomPass)
    (b : BlockId) : Option DomPass :=
  match (preds b).filter p.doms.contains with
  | [] => some p
  | first :: rest => do
      let up ← rest.foldlM (p.doms.meet rank steps) first
      return if p.doms[b]? = some up then p else ⟨p.doms.insert b up, true⟩

def settle (pass : DomTable → Option DomPass) : Nat → DomTable → Option DomTable
  | 0, _ => none
  | n + 1, doms => do
      let p ← pass doms
      if p.changed then settle pass n p.doms else return p.doms

end DomPass

namespace FlowGraph

def ranks (order : List BlockId) : Std.TreeMap BlockId Nat := .ofList order.zipIdx

def predsIn (g : FlowGraph) (order : List BlockId) : Std.TreeMap BlockId (List BlockId) :=
  .ofList (order.map fun b => (b, order.filter fun p => (g.allSuccs p).contains b))

/-- Immediate dominators, for an order of the nodes that the entry reaches. The entry itself is
passed over. -/
def dominators? (g : FlowGraph) (order : List BlockId) : Option DomTable :=
  let ranks := ranks order
  let preds := g.predsIn order
  let refine := DomPass.refine (ranks.getD · order.length) (2 * order.length) (preds.getD · [])
  DomPass.settle (fun doms => (order.filter (· ≠ g.entry)).foldlM refine ⟨doms, false⟩)
    (order.length * order.length + 1) (.ofList [(g.entry, g.entry)])

def dominators (g : FlowGraph) : DomTable := (g.dominators? g.reversePostorder).getD ∅

end FlowGraph

end JvmLift
