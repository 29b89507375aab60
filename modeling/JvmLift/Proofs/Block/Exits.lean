import JvmLift.Proofs.Block.Fold
import JvmLift.Proofs.Block.Simulate
import JvmLift.Proofs.Flow.Forward

/-!
# Where simulated blocks lead

A simulated block leads where the instructions of its block of code lead. Spills, duplicates and
variables change what a block computes, not where it goes on.
-/
namespace JvmLift

namespace Simulation

variable {ctx : MethodContext} {p : Plan} {s s' : State}

/-- Every simulated block stands for a block of code and leads where that does. -/
def State.Follows (cf : ControlFlow) (s : State) : Prop :=
  ∀ b ∈ s.blocks, ∃ block ∈ cf.blocks, b.link = (block.id, block.terminator.targets)

theorem State.Follows.simulateBlock (h : s.Follows p.flow) (hends : p.flow.Terminated) {block}
    (hmem : block ∈ p.flow.blocks) (hblock : simulateBlock ctx p s block = .ok s') : s'.Follows p.flow := by
  obtain ⟨last, hlast, hterm⟩ := hends block hmem
  obtain ⟨stack, s1, f, asked, exit, henter, hsteps, -, rfl⟩ := simulateBlock_inv hblock
  intro c hc
  rcases Block.mem_of_mem_insert hc with rfl | hc
  · refine ⟨block, hmem, ?_⟩
    have hstop : block.stop = last.next := by simp [BasicBlock.stop, hlast]
    have htargets := targets_runSteps hsteps hlast
    rw [link_spillBack, Block.link, Block.succs, hterm, hstop, htargets]
  · have hlink : c.link ∈ s1.blocks.map Block.link := List.mem_map_of_mem hc
    rw [map_link_enter henter] at hlink
    obtain ⟨c', hc', heq⟩ := List.mem_map.mp hlink
    exact heq ▸ h c' hc'

theorem State.Follows.simulateAll (h : s.Follows p.flow) (hends : p.flow.Terminated) {order}
    (hall : simulateAll ctx p s order = .ok s') : s'.Follows p.flow := by
  induction order generalizing s with
  | nil =>
      cases hall
      exact h
  | cons id rest ih =>
      unfold Simulation.simulateAll at hall
      split at hall
      · exact ih h hall
      · rename_i block hblock
        obtain ⟨s1, hs1, hall⟩ := bind_eq_ok.mp hall
        exact ih (h.simulateBlock hends (ControlFlow.block?_some hblock).1 hs1) hall

end Simulation

variable {blocks : List Block} {asked : List String}

theorem link_simulate {ctx cf} (hends : cf.Terminated) (h : simulate ctx cf = .ok (blocks, asked)) :
    ∀ b ∈ blocks, ∃ block ∈ cf.blocks, b.link = (block.id, block.terminator.targets) := by
  obtain ⟨s, hs, h⟩ := bind_eq_ok.mp h
  cases h
  have hinitial : Simulation.State.initial.Follows cf := nofun
  have hfollows := hinitial.simulateAll hends hs
  intro b hb
  have hlink : b.link ∈ (s.duplicates.resolve s.blocks s.nextTemp).1.map Block.link := List.mem_map_of_mem hb
  rw [Duplicates.map_link_resolve] at hlink
  obtain ⟨c, hc, heq⟩ := List.mem_map.mp hlink
  exact heq ▸ hfollows c hc

/-! ## Forward exits -/

def Block.Forward (blocks : List Block) : Prop := ∀ b ∈ blocks, ∀ t ∈ b.succs, b.id < t

theorem forward_simulate {ctx cf} (hcf : cf.Ascends) (hends : cf.Terminated)
    (h : simulate ctx cf = .ok (blocks, asked)) : Block.Forward blocks := by
  intro b hb t ht
  obtain ⟨block, hblock, hlink⟩ := link_simulate hends h b hb
  obtain ⟨hid, hsuccs⟩ := Prod.mk.injEq .. ▸ hlink
  rw [hid]
  exact hcf.targets block hblock t (hsuccs ▸ ht)

theorem Fold.Absorbs.forward {kept b1 b2 exit} (h : Absorbs blocks kept b1 b2 exit)
    (hf : Block.Forward blocks) : Block.Forward (absorb b1.id b2.id exit blocks) := by
  intro c hc t ht
  obtain ⟨-, b, hb, hid, ⟨rfl, -⟩ | ⟨howner, hexit⟩⟩ := mem_absorb hc
  · exact hf c hb t ht
  · rw [hid, howner]
    rw [Block.succs, hexit, h.mem_targets] at ht
    rcases ht with ht | ht
    · exact hf b1 h.owner t ht.1
    · exact Nat.lt_trans (hf b1 h.owner b2.id h.mem_succs) (hf b2 h.gone t ht)

theorem Fold.forward_run {kept} (n : Nat) (hf : Block.Forward blocks) : Block.Forward (run kept n blocks).1 :=
  run_induction (fun _ _ _ _ habs => habs.forward) n hf

end JvmLift
