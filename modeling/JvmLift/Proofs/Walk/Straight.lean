import JvmLift.Proofs.Block.Exits
import JvmLift.Proofs.Structure.Method
import JvmLift.Proofs.Tree.Relations
import JvmLift.Proofs.Walk.Gathering

/-!
# Walks without loops and regions

A walk writes a loop only at the header of a natural loop, and a region only where a plan says so. Over blocks that
lead forward there are no natural loops.
-/
namespace JvmLift

open JvmLift.Tree (nodesList Straight)

namespace Walk

variable {l : Layout}

def curved? (t : Tree) : Option Tree := if t.isStraight then none else some t

theorem curved_labelOf (b : BlockId) : Tree.picked curved? (labelOf l b) = [] := by
  unfold labelOf
  split <;> rfl

theorem gathers_curved (hl : l.loops = []) (hp : l.protection.plans = []) :
    Gathers l curved? fun _ _ new => new = [] where
  linear := by constructor <;> intros <;> rfl
  trans h h' _ _ := List.append_eq_nil_iff.mpr ⟨h, h'⟩
  still _ _ := rfl
  goto _ _ _ := rfl
  block _ b block _ _ := by
    rw [blockTrees, Tree.picked_append, curved_labelOf, Tree.picked_stmtsOf fun _ => rfl]
    rfl
  wrap _ _ _ _ h := by
    unfold State.wrap
    split <;> exact h
  loops := .inl hl
  tries := .inl hp

theorem straight_run (hl : l.loops = []) (hp : l.protection.plans = []) (entry : BlockId) :
    Straight (nodesList (run l entry).1) := by
  by_cases hentry : l.isBlock entry = true
  · obtain ⟨reached, hr⟩ := run_region l entry hentry
    have hnone := List.filterMap_eq_nil_iff.mp (hr.gathers (gathers_curved hl hp)).body
    intro t ht
    simpa [curved?] using hnone t ht
  · unfold run
    rw [if_neg hentry]
    exact List.forall_mem_nil _

end Walk

namespace Structure

variable {cf : ControlFlow} {blocks : List Block} {p : Protection}

theorem ascends_graphOf (hcf : cf.Ascends) (hn : (blocks.map (·.id)).Nodup) (hf : Block.Forward blocks) :
    (graphOf cf blocks).Ascends := by
  intro x y hy
  have hfits := Layout.fits_ofGraph cf hn ⟨[], [], []⟩ []
  unfold FlowGraph.allSuccs at hy
  split at hy
  · rename_i n hnode
    have hx : (graphOf cf blocks).isNode x = true := by
      rw [FlowGraph.isNode, Std.TreeMap.contains_eq_isSome_getElem?, hnode]
      rfl
    obtain ⟨b, hb, rfl⟩ := Layout.isBlock_iff.mp ((hfits.node x).symm.trans hx)
    rw [graphOf, FlowGraph.ofNodes, Block.getElem?_ofList hn _ hb] at hnode
    cases hnode
    rcases List.mem_append.mp (List.mem_filter.mp hy).1 with hsucc | hextra
    · exact hf b hb y (List.mem_filter.mp hsucc).1
    · exact hcf.lt_of_mem_allSuccs (List.mem_filter.mp hextra).1
  · cases hy

theorem forward_folded (hf : Block.Forward blocks) (fold : Bool) : Block.Forward (folded cf blocks p fold) := by
  unfold folded
  split
  · exact Fold.forward_run _ hf
  · exact hf

theorem straight_structureMethod (hcf : cf.Ascends) (hn : (blocks.map (·.id)).Nodup) (hf : Block.Forward blocks)
    (hp : p.plans = []) (fold : Bool) : Straight (nodesList (structureMethod cf blocks p fold).stmts) := by
  rw [structureMethod_eq]
  refine Walk.straight_run ?_ hp cf.entry
  exact (ascends_graphOf hcf (nodup_folded hn) (forward_folded hf fold)).naturalLoops_eq_nil

end Structure

end JvmLift
