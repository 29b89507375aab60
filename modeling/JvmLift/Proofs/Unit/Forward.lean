import JvmLift.Proofs.Sugar.Straight
import JvmLift.Proofs.Walk.Straight
import JvmLift.Protection.Analysis

/-!
# Methods that only branch forward

Code whose branches all lead forward, and that protects nothing, comes out without loops and regions,
whatever is folded on the way and whichever forms are looked for.
-/
namespace JvmLift

theorem Protection.plans_analyze_nil (code : List Instruction) : (analyze code []).plans = [] := by
  simp [analyze, HandlerGroup.ofEdges, regions, classifyAll]

/-- No branch leads back and nothing is protected: then the body has neither loops nor regions, at any
depth. -/
theorem straight_of_forward_code (bytes : Bytes) {code : List Instruction}
    (hdecode : Instruction.decodeAll bytes = .ok code) (hforward : ∀ i ∈ code, ∀ t ∈ i.op.targets, i.offset < t)
    (extra : List Nat) (ctx : MethodContext) {blocks : List Block} {asked : List String}
    (hsimulate : simulate ctx (.build code [] extra) = .ok (blocks, asked)) (fold : Bool) (sugarCtx : SugarContext)
    (o : SugarOptions) : ∀ t ∈ Tree.nodesList (sugar sugarCtx o
      (structureMethod (.build code [] extra) blocks (Protection.analyze code []) fold)).1.stmts,
      t.isLoop = false ∧ t.isRegion = false := by
  have hflow := ControlFlow.ascends_build (Instruction.contiguous_decodeAll hdecode) hforward extra
  have hblocks := forward_simulate hflow (ControlFlow.terminated_build code [] extra) hsimulate
  have hstraight := Structure.straight_structureMethod hflow (simulate_ascending hsimulate).nodup hblocks
    (Protection.plans_analyze_nil code) fold
  intro t ht
  simpa [Tree.isStraight] using Sugar.straight_sugar sugarCtx o hstraight t ht

/-- The code of `if (p != 0) { p += 1; } switch (p) { case 7: p += 2; }`. -/
def branchAndSwitch : List Instruction :=
  [⟨0, 0x1a, 1, .load .int 0⟩, ⟨1, 0x99, 3, .ifZero .eq 7⟩, ⟨4, 0x84, 3, .increment 0 1⟩, ⟨7, 0x1a, 1, .load .int 0⟩,
    ⟨8, 0xab, 20, .lookupSwitch 31 [(7, 28)]⟩, ⟨28, 0x84, 3, .increment 0 2⟩, ⟨31, 0xb1, 1, .leave none⟩]

theorem straight_branchAndSwitch : (∀ i ∈ branchAndSwitch, ∀ t ∈ i.op.targets, i.offset < t) ∧ ∃ blocks asked,
      simulate Discipline.context (.build branchAndSwitch [] []) = .ok (blocks, asked) ∧ blocks.length = 5 ∧
      ∀ t ∈ Tree.nodesList (sugar ⟨⟨none, []⟩, .void, 1⟩ .all (structureMethod (.build branchAndSwitch [] []) blocks
        (Protection.analyze branchAndSwitch []) true)).1.stmts, t.isLoop = false ∧ t.isRegion = false := by
  have hdecode : Instruction.decodeAll [0x1a, 0x99, 0, 6, 0x84, 0, 1, 0x1a, 0xab, 0, 0, 0, 0, 0, 0, 23, 0, 0, 0, 1,
      0, 0, 0, 7, 0, 0, 0, 20, 0x84, 0, 2, 0xb1] = .ok branchAndSwitch := by decide +kernel
  have hforward : ∀ i ∈ branchAndSwitch, ∀ t ∈ i.op.targets, i.offset < t := by decide
  have hlength : (simulate Discipline.context (.build branchAndSwitch [] [])).map (·.1.length) = .ok 5 := by
    decide +kernel
  obtain ⟨r, hs, hr⟩ := map_eq_ok.mp hlength
  exact ⟨hforward, r.1, r.2, hs, hr, straight_of_forward_code _ hdecode hforward [] _ hs true _ _⟩

end JvmLift
