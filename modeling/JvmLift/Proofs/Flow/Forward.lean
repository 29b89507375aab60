import JvmLift.Proofs.Flow.Blocks
import JvmLift.Proofs.Structure.Layout

/-!
# Code that only branches forward

Where every branch leads to a larger offset, every edge between blocks does, so there is no natural loop: a header
would come before its latch and behind it.
-/
namespace JvmLift

open List

namespace FlowGraph

variable {g : FlowGraph} {a x : BlockId}

def Ascends (g : FlowGraph) : Prop := ∀ x, ∀ y ∈ g.allSuccs x, x < y

theorem Ascends.evades (h : g.Ascends) (hx : x ∈ g.reversePostorder) (hlt : x < a) : g.Evades a x := by
  induction x using Nat.strongRecOn with
  | ind x ih =>
      obtain ⟨before, after, horder⟩ := append_of_mem hx
      rcases g.linked_reversePostorder before x after horder with hentry | ⟨p, hp, hpx⟩
      · obtain rfl := mem_singleton.mp hentry
        exact ⟨Nat.ne_of_lt hlt, .refl⟩
      · have hpx' := h p x hpx
        have hmem : p ∈ g.reversePostorder := horder ▸ mem_append_left _ hp
        exact (ih p hpx' hmem (Nat.lt_trans hpx' hlt)).step hpx (Nat.ne_of_lt hlt)

theorem Ascends.latches_eq_nil (h : g.Ascends) {header} (hnode : g.isNode header = true) :
    g.latches g.dominators g.reversePostorder header = [] := by
  rw [eq_nil_iff_forall_not_mem]
  intro latch hlatch
  by_cases hentry : g.isNode g.entry = true
  · obtain ⟨hmem, hcuts, hback⟩ := (mem_latches hentry).mp hlatch
    exact hcuts (h.evades hmem (h latch header (mem_allSuccs_of_mem_succs hback hnode)))
  · obtain ⟨x, hx, -⟩ := mem_flatMap.mp hlatch
    rw [reversePostorder, if_neg hentry] at hx
    cases hx

theorem Ascends.naturalLoops_eq_nil (h : g.Ascends) : g.naturalLoops = [] := by
  refine filterMap_eq_nil_iff.mpr fun header hheader => ?_
  simp [h.latches_eq_nil (mem_ids.mp hheader)]

end FlowGraph

open Instruction (Contiguous)

def Instruction.Forward (code : List Instruction) : Prop := ∀ i ∈ code, ∀ t ∈ i.op.targets, i.offset < t

theorem Operation.targets_tableCases (low : Int32) (ts : List BlockId) : (tableCases low ts).map (·.2) = ts := by
  rw [tableCases, List.map_map]
  exact zipIdx_map_fst 0 ts

namespace Terminator

theorem mem_targets_branch {t f x} : x ∈ (branch t f).targets ↔ x = t ∨ x = f := by
  rw [targets]
  split <;> simp_all

theorem mem_targets_switch {d x cases} : x ∈ (switch d cases).targets ↔ x ∈ cases.map (·.2) ∨ x = d := by
  rw [targets, mem_sortedSet, mem_append, mem_singleton]

theorem mem_targets_ofInstruction {i x} (h : x ∈ (ofInstruction i).targets) : x ∈ i.op.targets ∨ x = i.next := by
  unfold ofInstruction at h
  cases hop : i.op with
  | ifZero op t | ifIntCmp op t | ifRefCmp op t | ifNull t | ifNonNull t =>
      simp only [hop, mem_targets_branch] at h
      simpa [Operation.targets] using h
  | tableSwitch d low high ts =>
      simp only [hop, mem_targets_switch] at h
      rw [Operation.targets_tableCases] at h
      exact .inl (mem_cons.mpr h.symm)
  | lookupSwitch d ps =>
      simp only [hop, mem_targets_switch] at h
      exact .inl (mem_cons.mpr h.symm)
  | goto t =>
      simp only [hop] at h
      exact .inl h
  | leave kind | throw | ret slot =>
      simp only [hop] at h
      cases h
  | _ =>
      simp only [hop] at h
      exact .inr (mem_singleton.mp h)

theorem mem_targets_of_jsr {i t r} (h : ofInstruction i = .jsr t r) : t ∈ i.op.targets := by
  unfold ofInstruction at h
  split at h <;> cases h
  simp_all [Operation.targets]

end Terminator

namespace ControlFlow

/-- Every edge between blocks leads to a larger offset, and there are no handlers. -/
structure Ascends (cf : ControlFlow) : Prop where
  targets : ∀ b ∈ cf.blocks, ∀ t ∈ b.terminator.targets, b.id < t
  subroutines : ∀ b ∈ cf.blocks, ∀ t r, b.terminator = .jsr t r → b.id < t
  handlers : cf.handlers = []

theorem ascends_build {code} (hcode : Contiguous 0 code) (h : Instruction.Forward code)
    (extra : List Nat) : (build code [] extra).Ascends := by
  have hlast : ∀ b ∈ (build code [] extra).blocks, ∃ last ∈ code, b.id ≤ last.offset ∧ b.terminator = .ofInstruction last :=
    fun b hb => terminator_of_mem_build hcode hb
  refine ⟨fun b hb t ht => ?_, fun b hb t r ht => ?_, rfl⟩
  · obtain ⟨last, hmem, hle, hterm⟩ := hlast b hb
    rw [hterm] at ht
    rcases Terminator.mem_targets_ofInstruction ht with ht | rfl
    · exact Nat.lt_of_le_of_lt hle (h last hmem t ht)
    · exact Nat.lt_of_le_of_lt hle (hcode.bounds hmem).2.1
  · obtain ⟨last, hmem, hle, hterm⟩ := hlast b hb
    exact Nat.lt_of_le_of_lt hle (h last hmem t (Terminator.mem_targets_of_jsr (hterm ▸ ht)))

theorem Ascends.lt_of_mem_allSuccs {cf : ControlFlow} (h : cf.Ascends) {b t} (ht : t ∈ cf.allSuccs b) : b < t := by
  simp only [allSuccs, mem_filter, mem_append, Option.mem_toList] at ht
  rcases ht.1 with (hsucc | hjsr) | hhandler
  · unfold succs at hsucc
    split at hsucc
    · rename_i block hb
      obtain ⟨hmem, hid⟩ := block?_some hb
      exact hid ▸ h.targets block hmem t (mem_filter.mp hsucc).1
    · cases hsucc
  · obtain ⟨block, hb, hterm⟩ := Option.bind_eq_some_iff.mp hjsr
    obtain ⟨hmem, hid⟩ := block?_some hb
    split at hterm
    · cases hterm
      exact hid ▸ h.subroutines block hmem _ _ ‹_›
    · cases hterm
  · rw [handlersOf, h.handlers] at hhandler
    cases hhandler

end ControlFlow

end JvmLift
