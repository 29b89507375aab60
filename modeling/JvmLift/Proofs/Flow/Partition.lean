import JvmLift.Proofs.Flow.Forward

/-!
# Blocks partition the code

Put one behind the other, the blocks of a method are its code. Control enters a block only at its first instruction
and leaves it only at its last.
-/
namespace JvmLift

open List

open Instruction (Contiguous codeEnd)

def Operation.isTransfer {τ : Type} : Operation τ → Bool
  | .ifZero .. | .ifIntCmp .. | .ifRefCmp .. | .ifNull _ | .ifNonNull _ | .goto _ | .tableSwitch ..
  | .lookupSwitch .. | .jsr _ | .ret _ | .leave _ | .throw => true
  | _ => false

theorem Operation.isTransfer_eq {τ} (op : Operation τ) :
    op.isTransfer = (op.endsFlow || op.isConditional || op.isJsr) := by
  cases op <;> rfl

/-- The blocks of a method are parts of its code, in order and without gaps. -/
structure ControlFlow.Partitions (cf : ControlFlow) (code : List Instruction) (edges : List HandlerEdge)
    (extra : List Nat) : Prop where
  concat : cf.blocks.flatMap (·.instructions) = code
  ascending : (cf.blocks.map (·.id)).Pairwise (· < ·)
  named : ∀ b ∈ cf.blocks, b.instructions.head?.map (·.offset) = some b.id
  ends : ∀ b ∈ cf.blocks, b.instructions.getLast?.map Terminator.ofInstruction = some b.terminator
  /-- Only the last instruction of a block can send control elsewhere. -/
  leaves : ∀ b ∈ cf.blocks, ∀ i ∈ b.instructions.dropLast, i.op.isTransfer = false
  /-- Nothing but the start of a block is a branch target, a handler, a bound or asked for. -/
  enters : ∀ b ∈ cf.blocks, ∀ i ∈ b.instructions.tail, (∀ j ∈ code, i.offset ∉ j.op.targets) ∧
    (∀ e ∈ edges, i.offset ≠ e.handler ∧ i.offset ≠ e.start ∧ i.offset ≠ e.stop) ∧ i.offset ∉ extra
  /-- Where a block leads to an instruction, another block starts. -/
  closed : ∀ b ∈ cf.blocks, ∀ t, (t ∈ b.terminator.targets ∨ ∃ r, b.terminator = .jsr t r) →
    (∃ i ∈ code, i.offset = t) → ∃ c ∈ cf.blocks, c.id = t

variable {i : Instruction}

namespace Instruction.Contiguous

variable {start : Nat} {code : List Instruction}

theorem pairwise_offset (h : Contiguous start code) : (code.map (·.offset)).Pairwise (· < ·) := by
  induction code generalizing start with
  | nil => exact .nil
  | cons i rest ih =>
      obtain ⟨-, hlt, hrest⟩ := h
      rw [map_cons, pairwise_cons]
      refine ⟨fun pc hpc => ?_, ih hrest⟩
      obtain ⟨j, hj, rfl⟩ := mem_map.mp hpc
      have := (hrest.bounds hj).1
      omega

theorem exists_next (h : Contiguous start code) (hi : i ∈ code.dropLast) : ∃ j ∈ code.tail, j.offset = i.next := by
  induction code generalizing start with
  | nil => cases hi
  | cons a rest ih =>
      obtain ⟨-, -, hrest⟩ := h
      cases rest with
      | nil => cases hi
      | cons b rest =>
          rcases mem_cons.mp hi with rfl | hi
          · exact ⟨b, mem_cons_self, hrest.1⟩
          · obtain ⟨j, hj, hnext⟩ := ih hrest hi
            exact ⟨j, mem_of_mem_tail hj, hnext⟩

theorem exists_head {after} (h : Contiguous start (code ++ after)) (hi : i ∈ code ++ after)
    (hoffset : i.offset = codeEnd start code) : ∃ j rest, after = j :: rest ∧ j.offset = codeEnd start code := by
  obtain ⟨hcode, hafter⟩ := contiguous_append.mp h
  cases after with
  | nil =>
      rw [append_nil] at hi
      have := hcode.bounds hi
      omega
  | cons j rest => exact ⟨j, rest, rfl, hafter.1⟩

end Instruction.Contiguous

namespace ControlFlow

variable {runs : List (List Instruction)}

theorem blockOf?_cons (i : Instruction) (run : List Instruction) : blockOf? (i :: run) =
      some ⟨i.offset, i :: run, .ofInstruction ((i :: run).getLast (cons_ne_nil i run))⟩ := by
  simp [blockOf?, getLast?_eq_some_getLast]

theorem flatMap_filterMap_blockOf? (h : ∀ run ∈ runs, run ≠ []) :
    (runs.filterMap blockOf?).flatMap (·.instructions) = runs.flatten := by
  induction runs with
  | nil => rfl
  | cons run runs ih =>
      obtain ⟨hrun, hruns⟩ := forall_mem_cons.mp h
      cases run with
      | nil => contradiction
      | cons i run => simp [blockOf?_cons, ih hruns]

theorem map_id_sublist (h : ∀ run ∈ runs, run ≠ []) :
    ((runs.filterMap blockOf?).map (·.id)).Sublist (runs.flatten.map (·.offset)) := by
  induction runs with
  | nil => exact .slnil
  | cons run runs ih =>
      obtain ⟨hrun, hruns⟩ := forall_mem_cons.mp h
      cases run with
      | nil => contradiction
      | cons i run =>
          simp only [flatten_cons, map_append]
          exact ((ih hruns).trans (sublist_append_right _ _)).cons_cons _

variable {code : List Instruction} {edges : List HandlerEdge} {extra : List Nat} {b : BasicBlock}

theorem ne_nil_of_mem_cutAt {cuts run} (h : run ∈ cutAt cuts code) : run ≠ [] := by
  obtain ⟨i, rest, rfl, -⟩ := not_leader_of_mem_cutAt h
  exact cons_ne_nil i rest

theorem pairwise_id_build (hcode : Contiguous 0 code) :
    ((build code edges extra).blocks.map (·.id)).Pairwise (· < ·) := by
  have hsub : ((build code edges extra).blocks.map (·.id)).Sublist _ :=
    map_id_sublist fun _ => ne_nil_of_mem_cutAt
  rw [flatten_cutAt] at hsub
  exact hcode.pairwise_offset.sublist hsub

/-! ## Leaders -/

theorem target_mem_leaders (hi : i ∈ code) {t} (ht : t ∈ i.op.targets) : t ∈ leaders code edges extra :=
  mem_append_right _ (mem_flatMap.mpr ⟨i, hi, mem_append_left _ ht⟩)

theorem next_mem_leaders (hi : i ∈ code) (ht : i.op.isTransfer = true) : i.next ∈ leaders code edges extra := by
  rw [Operation.isTransfer_eq] at ht
  apply mem_append_right
  exact mem_flatMap.mpr ⟨i, hi, by simp [ht]⟩

theorem extra_mem_leaders {pc} (h : pc ∈ extra) : pc ∈ leaders code edges extra :=
  mem_append_left _ (mem_append_right _ h)

theorem edge_mem_leaders {e} (he : e ∈ edges) {pc} (h : pc ∈ [e.start, e.stop, e.handler]) :
    pc ∈ leaders code edges extra := by
  apply mem_append_left
  apply mem_append_left
  exact mem_cons_of_mem _ (mem_flatMap.mpr ⟨e, he, h⟩)

/-! ## One block -/

theorem run_of_mem_build (hb : b ∈ (build code edges extra).blocks) :
    b.instructions ∈ cutAt (leaders code edges extra) code := by
  obtain ⟨first, run, last, hpart, -, rfl⟩ := mem_build hb
  exact hpart

theorem not_leader_of_mem_tail (hb : b ∈ (build code edges extra).blocks) (hi : i ∈ b.instructions.tail) :
    i.offset ∉ leaders code edges extra := by
  obtain ⟨first, run, heq, hrun⟩ := not_leader_of_mem_cutAt (run_of_mem_build hb)
  rw [heq] at hi
  exact hrun i hi

theorem isTransfer_of_mem_dropLast (hcode : Contiguous 0 code) (hb : b ∈ (build code edges extra).blocks)
    (hi : i ∈ b.instructions.dropLast) : i.op.isTransfer = false := by
  have hrun := infix_of_mem_cutAt (run_of_mem_build hb)
  obtain ⟨start, hcontig⟩ := hcode.of_subrun hrun
  obtain ⟨j, hj, hnext⟩ := hcontig.exists_next hi
  rw [Bool.eq_false_iff]
  intro ht
  apply not_leader_of_mem_tail hb hj
  rw [hnext]
  exact next_mem_leaders (hrun.subset (dropLast_subset _ hi)) ht

theorem exists_block_behind (hcode : Contiguous 0 code) (hb : b ∈ (build code edges extra).blocks)
    {last} (hlast : b.instructions.getLast? = some last) (hi : ∃ i ∈ code, i.offset = last.next) :
    ∃ c ∈ (build code edges extra).blocks, c.id = last.next := by
  obtain ⟨before, after, hcut⟩ := append_of_mem (run_of_mem_build hb)
  have hsplit : code = (before.flatten ++ b.instructions) ++ after.flatten := by
    conv => lhs; rw [← flatten_cutAt (leaders code edges extra) code, hcut]
    simp
  have hend : codeEnd 0 (before.flatten ++ b.instructions) = last.next := by
    rw [Instruction.codeEnd_append, codeEnd, hlast]
    rfl
  obtain ⟨i, hi, hoffset⟩ := hi
  rw [hsplit] at hcode hi
  obtain ⟨j, rest, hafter, hj⟩ := hcode.exists_head hi (hoffset.trans hend.symm)
  cases after with
  | nil => cases hafter
  | cons run runs =>
      have hrun : run ∈ cutAt (leaders code edges extra) code := by simp [hcut]
      obtain ⟨k, tail, rfl, -⟩ := not_leader_of_mem_cutAt hrun
      obtain ⟨rfl, -⟩ := List.cons.inj hafter
      exact ⟨_, mem_filterMap.mpr ⟨_, hrun, blockOf?_cons k tail⟩, hj.trans hend⟩

end ControlFlow

/-- Whatever bounds, handlers and further starts are asked for, blocks partition the code. -/
theorem ControlFlow.build_partitions_code {bytes : Bytes} {code : List Instruction}
    (hdecode : Instruction.decodeAll bytes = .ok code) (edges : List HandlerEdge) (extra : List Nat) :
    (build code edges extra).Partitions code edges extra := by
  have hcode := Instruction.contiguous_decodeAll hdecode
  refine ⟨?code, pairwise_id_build hcode, ?named, ?ends, ?leaves, ?enters, ?closed⟩
  case code => exact (flatMap_filterMap_blockOf? fun _ => ne_nil_of_mem_cutAt).trans (flatten_cutAt _ _)
  case named =>
    intro b hb
    obtain ⟨first, run, last, -, -, rfl⟩ := mem_build hb
    rfl
  case ends =>
    intro b hb
    obtain ⟨first, run, last, -, hlast, rfl⟩ := mem_build hb
    simp [hlast]
  case leaves =>
    intro b hb i hi
    exact isTransfer_of_mem_dropLast hcode hb hi
  case enters =>
    intro b hb i hi
    have hnot := not_leader_of_mem_tail hb hi
    refine ⟨fun j hj ht => hnot (target_mem_leaders hj ht), fun e he => ?_, fun h => hnot (extra_mem_leaders h)⟩
    have hne : i.offset ∉ [e.start, e.stop, e.handler] := fun h => hnot (edge_mem_leaders he h)
    simp only [List.mem_cons, List.not_mem_nil, or_false, not_or] at hne
    exact ⟨hne.2.2, hne.1, hne.2.1⟩
  case closed =>
    intro b hb t ht hi
    obtain ⟨first, run, last, hpart, hlast, rfl⟩ := mem_build hb
    have hmem : last ∈ code := (infix_of_mem_cutAt hpart).subset (List.mem_of_getLast? hlast)
    rcases ht with ht | ⟨r, hjsr⟩
    · rcases Terminator.mem_targets_ofInstruction ht with ht | rfl
      · exact exists_block_of_leader (target_mem_leaders hmem ht) hi
      · exact exists_block_behind hcode hb hlast hi
    · exact exists_block_of_leader (target_mem_leaders hmem (Terminator.mem_targets_of_jsr hjsr)) hi

def callAndReturn : List Instruction :=
  [⟨0, 0xa8, 3, .jsr 4⟩, ⟨3, 0xb1, 1, .leave none⟩, ⟨4, 0x4b, 1, .store .reference 0⟩, ⟨5, 0, 1, .nop⟩,
    ⟨6, 0xa9, 2, .ret 0⟩]

/-- The second instruction of the subroutine handles what the call throws, and starts are asked for
inside the call and past the end. -/
theorem ControlFlow.build_partitions_callAndReturn :
    Instruction.decodeAll [0xa8, 0, 4, 0xb1, 0x4b, 0, 0xa9, 0] = .ok callAndReturn ∧
      (build callAndReturn [⟨0, 3, 5, none⟩] [1, 99]).blocks.map (·.id) = [0, 3, 4, 5] ∧
      (build callAndReturn [⟨0, 3, 5, none⟩] [1, 99]).Partitions callAndReturn [⟨0, 3, 5, none⟩] [1, 99] := by
  have hdecode : Instruction.decodeAll [0xa8, 0, 4, 0xb1, 0x4b, 0, 0xa9, 0] = .ok callAndReturn := rfl
  exact ⟨hdecode, by decide, build_partitions_code hdecode [⟨0, 3, 5, none⟩] [1, 99]⟩

end JvmLift
