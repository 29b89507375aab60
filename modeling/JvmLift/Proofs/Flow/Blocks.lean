import JvmLift.Flow.BasicBlock
import JvmLift.Proofs.Instruction.Decode

/-!
# Cutting code into blocks

The blocks of a method are consecutive parts of its code. A leader is met at the start of a block and
nowhere else in it.
-/
namespace JvmLift

open List

open Instruction (Contiguous codeEnd)

namespace Instruction

/-- Where an instruction starts, or where the code ends. -/
def IsBoundary (code : List Instruction) (pc : Nat) : Prop :=
  (∃ i ∈ code, i.offset = pc) ∨ pc = codeEnd 0 code

variable {code : List Instruction}

theorem isBoundary_offset {i} (hi : i ∈ code) : IsBoundary code i.offset :=
  .inl ⟨i, hi, rfl⟩

theorem isBoundary_next (h : Contiguous 0 code) {i} (hi : i ∈ code) : IsBoundary code i.next := by
  obtain ⟨before, after, rfl⟩ := append_of_mem hi
  obtain ⟨-, -, hafter⟩ : Contiguous _ (i :: after) := (contiguous_append.mp h).2
  cases after with
  | nil =>
      refine .inr ?_
      rw [codeEnd_append]
      rfl
  | cons j after =>
      refine .inl ⟨j, ?_, hafter.1⟩
      simp

end Instruction

namespace ControlFlow

theorem block?_some {cf : ControlFlow} {b block} (h : cf.block? b = some block) : block ∈ cf.blocks ∧ block.id = b :=
  ⟨mem_of_find?_eq_some h, by simpa using find?_some h⟩

variable {cuts : List Nat} {code : List Instruction}

theorem flatten_cutAt (cuts : List Nat) (code : List Instruction) : (cutAt cuts code).flatten = code := by
  induction code with
  | nil => rfl
  | cons i rest ih =>
      rw [cutAt]
      split
      · rename_i j run runs hcut
        rw [hcut] at ih
        split <;> simp [← ih]
      · simp [ih]

variable {part : List Instruction}

/-- Code is cut in front of every leader, so only the first instruction of a part can be one. -/
theorem not_leader_of_mem_cutAt (h : part ∈ cutAt cuts code) :
    ∃ i run, part = i :: run ∧ ∀ j ∈ run, j.offset ∉ cuts := by
  induction code generalizing part with
  | nil => cases h
  | cons i rest ih =>
      rw [cutAt] at h
      split at h
      · rename_i j run runs hcut
        have hmem : j :: run ∈ cutAt cuts rest := by simp [hcut]
        obtain ⟨_, _, heq, hrun⟩ := ih hmem
        cases heq
        split at h
        · rcases mem_cons.mp h with rfl | h
          · exact ⟨i, [], rfl, nofun⟩
          · exact ih (hcut ▸ h)
        · rename_i hj
          rcases mem_cons.mp h with rfl | h
          · refine ⟨i, j :: run, rfl, forall_mem_cons.mpr ⟨?_, hrun⟩⟩
            simpa using hj
          · exact ih (by simp [hcut, h])
      · rcases mem_cons.mp h with rfl | h
        · exact ⟨i, [], rfl, nofun⟩
        · exact ih h

variable {edges : List HandlerEdge} {extra : List Nat} {b : BasicBlock}

theorem mem_build (hb : b ∈ (build code edges extra).blocks) :
    ∃ first run last, first :: run ∈ cutAt (leaders code edges extra) code ∧ (first :: run).getLast? = some last ∧
      b = ⟨first.offset, first :: run, .ofInstruction last⟩ := by
  obtain ⟨part, hpart, hb⟩ := mem_filterMap.mp hb
  obtain ⟨_, hfirst, hb⟩ := Option.bind_eq_some_iff.mp hb
  obtain ⟨last, hlast, hb⟩ := Option.bind_eq_some_iff.mp hb
  obtain ⟨first, run, rfl, -⟩ := not_leader_of_mem_cutAt hpart
  cases hfirst
  cases hb
  exact ⟨_, run, last, hpart, hlast, rfl⟩

theorem infix_of_mem_cutAt (h : part ∈ cutAt cuts code) : part <:+: code := by
  have hsubrun := infix_of_mem_flatten h
  rwa [flatten_cutAt] at hsubrun

theorem exists_block_of_leader {pc} (hpc : pc ∈ leaders code edges extra)
    (hi : ∃ i ∈ code, i.offset = pc) : ∃ b ∈ (build code edges extra).blocks, b.id = pc := by
  obtain ⟨i, hi, rfl⟩ := hi
  rw [← flatten_cutAt (leaders code edges extra) code] at hi
  obtain ⟨part, hpart, hi⟩ := mem_flatten.mp hi
  obtain ⟨first, run, rfl, hrun⟩ := not_leader_of_mem_cutAt hpart
  rcases mem_cons.mp hi with rfl | hi
  · refine ⟨⟨i.offset, i :: run, .ofInstruction ((i :: run).getLast (cons_ne_nil i run))⟩, ?_, rfl⟩
    refine mem_filterMap.mpr ⟨i :: run, hpart, ?_⟩
    rfl
  · exact absurd hpc (hrun i hi)

theorem stop_le_or_le_id (h : Contiguous 0 code) (hb : b ∈ (build code edges extra).blocks) {pc}
    (hpc : pc ∈ leaders code edges extra) (hbound : Instruction.IsBoundary code pc) : b.stop ≤ pc ∨ pc ≤ b.id := by
  obtain ⟨first, run, last, hpart, hlast, rfl⟩ := mem_build hb
  obtain ⟨_, _, heq, hrun⟩ := not_leader_of_mem_cutAt hpart
  cases heq
  obtain ⟨before, after, rfl⟩ := infix_of_mem_cutAt hpart
  obtain ⟨hleft, hafter⟩ := Instruction.contiguous_append.mp h
  obtain ⟨hbefore, hfirst, -⟩ : Contiguous 0 before ∧ first.offset = codeEnd 0 before ∧ _ :=
    Instruction.contiguous_append.mp hleft
  have hstop : BasicBlock.stop ⟨first.offset, first :: run, .ofInstruction last⟩ =
      codeEnd 0 (before ++ first :: run) := by
    rw [Instruction.codeEnd_append, codeEnd, BasicBlock.stop, hlast]
    rfl
  rw [hstop]
  rcases hbound with ⟨j, hj, rfl⟩ | rfl
  · rw [mem_append, mem_append, mem_cons] at hj
    rcases hj with (hj | rfl | hj) | hj
    · obtain ⟨-, hlt, hle⟩ := hbefore.bounds hj
      refine .inr ?_
      show j.offset ≤ first.offset
      omega
    · exact .inr (Nat.le_refl _)
    · exact absurd hpc (hrun j hj)
    · exact .inl (hafter.bounds hj).1
  · rw [Instruction.codeEnd_append 0 (before ++ first :: run)]
    exact .inl hafter.le_codeEnd

theorem terminator_of_mem_build {start} (h : Contiguous start code) (hb : b ∈ (build code edges extra).blocks) :
    ∃ last ∈ code, b.id ≤ last.offset ∧ b.terminator = .ofInstruction last := by
  obtain ⟨first, run, last, hpart, hlast, rfl⟩ := mem_build hb
  have hsubrun := infix_of_mem_cutAt hpart
  have hmem : last ∈ first :: run := mem_of_getLast? hlast
  obtain ⟨_, hrun⟩ := h.of_subrun hsubrun
  refine ⟨last, hsubrun.subset hmem, ?_, rfl⟩
  rw [hrun.1]
  exact (hrun.bounds hmem).1

end ControlFlow

end JvmLift
