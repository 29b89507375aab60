import JvmLift.Proofs.Block.Fold
import JvmLift.Proofs.Data

/-!
# Structuring as one walk

Structuring folds conditions, looks at the blocks that are left, and walks over them. When the walk
is repeated, only labels are new.
-/
namespace JvmLift

namespace Structure

/-- What the first walk looks at. -/
def layout (cf : ControlFlow) (blocks : List Block) (p : Protection) (fold : Bool) : Layout :=
  .ofGraph (folded cf blocks p fold) p (graphOf cf (folded cf blocks p fold)) []

/-- What the walk looks at that gives the body: the jumps of the first walk have their labels. -/
def walked (cf : ControlFlow) (blocks : List Block) (p : Protection) (fold : Bool) : Layout :=
  { layout cf blocks p fold with labels := (Walk.run (layout cf blocks p fold) cf.entry).2.gotos }

variable {cf : ControlFlow} {blocks : List Block} {p : Protection} {fold : Bool}

theorem walks_snd (cf : ControlFlow) (blocks : List Block) (p : Protection) (fold : Bool) :
    (walks cf blocks p fold).2 = Walk.run (walked cf blocks p fold) cf.entry := by
  unfold walked
  by_cases hg : (Walk.run (layout cf blocks p fold) cf.entry).2.gotos.isEmpty = true
  · rw [List.isEmpty_iff.mp hg]
    exact if_pos hg
  · exact if_neg hg

theorem structureMethod_eq (cf : ControlFlow) (blocks : List Block) (p : Protection) (fold : Bool) :
    structureMethod cf blocks p fold = bodyOf (Walk.run (walked cf blocks p fold) cf.entry) :=
  congrArg bodyOf (walks_snd cf blocks p fold)

/-- The walk over a layout enters a region that ends in front of its start. -/
def EntersInverted (l : Layout) (entry : BlockId) : Prop :=
  ∃ i ∈ (Walk.run l entry).2.tries, ∃ plan, l.protection.plans[i]? = some plan ∧ plan.stop < plan.start

theorem breaksOff_iff {l : Layout} {entry : BlockId} :
    (Walk.run l entry).2.breaksOff l.protection = true ↔ EntersInverted l entry := by
  simp [Walk.State.breaksOff, EntersInverted, TryPlan.isInverted, Option.any_eq_true]

/-- A method is structured unless one of the walks enters a region that ends in front of its start. -/
theorem structureMethod?_eq_some_iff {body : MethodBody} : structureMethod? cf blocks p fold = some body ↔
    ¬(EntersInverted (layout cf blocks p fold) cf.entry ∨ EntersInverted (walked cf blocks p fold) cf.entry) ∧
      body = structureMethod cf blocks p fold := by
  have hbreaks : ((walks cf blocks p fold).1.2.breaksOff p || (walks cf blocks p fold).2.2.breaksOff p) = true ↔
      EntersInverted (layout cf blocks p fold) cf.entry ∨ EntersInverted (walked cf blocks p fold) cf.entry := by
    rw [Bool.or_eq_true, walks_snd]
    exact or_congr breaksOff_iff breaksOff_iff
  unfold structureMethod? structureMethod
  dsimp only
  rw [← hbreaks]
  split
  · simp [*]
  · simp [*, eq_comm]

theorem structureMethod?_eq (h : ∀ plan ∈ p.plans, plan.start ≤ plan.stop) :
    structureMethod? cf blocks p fold = some (structureMethod cf blocks p fold) := by
  refine structureMethod?_eq_some_iff.mpr ⟨?_, rfl⟩
  rintro (⟨i, -, plan, hplan, hlt⟩ | ⟨i, -, plan, hplan, hlt⟩) <;>
    exact Nat.not_lt.mpr (h plan (List.mem_of_getElem? hplan)) hlt

section

variable (hn : (blocks.map (·.id)).Nodup)

include hn

theorem nodup_folded : ((folded cf blocks p fold).map (·.id)).Nodup := by
  unfold folded
  split
  · exact Fold.nodup_run _ hn
  · exact hn

theorem fits_layout (labels : List BlockId) : Layout.Fits { layout cf blocks p fold with labels } :=
  Layout.fits_ofGraph cf (nodup_folded hn) p labels

theorem reachesBy_folded {leave enter entry x} (hr : Block.ReachesBy blocks leave enter entry x)
    (hentry : entry ∈ (folded cf blocks p fold).map (·.id)) (hx : x ∈ (folded cf blocks p fold).map (·.id)) :
    Block.ReachesBy (folded cf blocks p fold) leave enter entry x := by
  cases fold with
  | true => exact Fold.reachesBy_run hn _ hr hentry hx
  | false => exact hr

end

theorem start_mem_folded (cf : ControlFlow) (fold : Bool) {plan} (hplan : plan ∈ p.plans)
    (hb : plan.start ∈ blocks.map (·.id)) : plan.start ∈ (folded cf blocks p fold).map (·.id) := by
  cases fold with
  | true =>
      refine Fold.mem_run _ ?_ hb
      simp only [keptBlocks, List.mem_append, List.mem_flatMap]
      exact .inl (.inl (.inr ⟨plan, hplan, by simp⟩))
  | false => exact hb

end Structure

end JvmLift
