import JvmLift.Proofs.Block.Handover
import JvmLift.Proofs.Instruction.Accepts

/-!
# Simulation keeps the control flow

Every block that the method reaches is simulated, and no other. It ends as its last instruction says, and all blocks
that lead to it leave stacks of one height, unless it is entered with a stack of its own.
-/
namespace JvmLift

/-! ## Reachable blocks -/

namespace ControlFlow

variable {cf : ControlFlow} {b t : BlockId}

theorem isNode_flowGraph : cf.flowGraph.isNode b = cf.isBlock b := by
  unfold FlowGraph.isNode flowGraph FlowGraph.ofNodes isBlock block?
  rw [Bool.eq_iff_iff]
  simp

theorem isBlock_of_mem_reversePostorder (h : b ∈ cf.reversePostorder) : cf.isBlock b = true := by
  rw [← isNode_flowGraph]
  have hentry : cf.flowGraph.isNode cf.flowGraph.entry = true := by
    by_contra hno
    simp [reversePostorder, FlowGraph.reversePostorder, hno] at h
  induction FlowGraph.reaches_of_mem_reversePostorder h with
  | refl => exact hentry
  | tail _ hlast _ => exact FlowGraph.isNode_of_mem_allSuccs hlast

theorem mem_reversePostorder_of_succ {block} (h : b ∈ cf.reversePostorder)
    (hblock : cf.block? b = some block) (ht : t ∈ block.terminator.targets) (hb : cf.isBlock t = true) :
    t ∈ cf.reversePostorder := by
  have hentry : cf.flowGraph.isNode cf.flowGraph.entry = true := by
    by_contra hno
    simp [reversePostorder, FlowGraph.reversePostorder, hno] at h
  have hsucc : t ∈ cf.flowGraph.allSuccs b := by
    refine FlowGraph.mem_allSuccs_of_mem_succs ?_ (isNode_flowGraph.trans hb)
    have hnode : cf.flowGraph.isNode b = true := isNode_flowGraph.trans (isBlock_of_mem_reversePostorder h)
    obtain ⟨n, hn⟩ : ∃ n, cf.flowGraph.nodes[b]? = some n := by
      rwa [FlowGraph.isNode, Std.TreeMap.contains_eq_isSome_getElem?, Option.isSome_iff_exists] at hnode
    simp only [FlowGraph.succs, hn]
    rw [node_flowGraph hn]
    simp [succs, hblock, ht, hb]
  exact FlowGraph.mem_reversePostorder hentry ((FlowGraph.reaches_of_mem_reversePostorder h).tail hsucc)

end ControlFlow

/-! ## Keys of a table -/

/-- A table has a target for every key from `low` to `high`. -/
def Operation.Spans : Operation Nat → Prop
  | .tableSwitch _ low high ts => low.toInt ≤ high.toInt ∧ (ts.length : Int) = high.toInt - low.toInt + 1
  | _ => True

namespace Instruction

theorem spans_of_encodes {address b op bytes} (h : Encodes address b op bytes) : op.Spans := by
  cases h with
  | narrow h =>
      cases h with
      | plain h => fin_cases h <;> trivial
      | indexed h | slotted h | branch h | farBranch h => fin_cases h <;> trivial
      | tableSwitch _ _ hcount hle hts => exact ⟨hle, hts.length_eq ▸ hcount⟩
      | _ => trivial
  | wide h =>
      cases h with
      | slotted h => fin_cases h <;> trivial
      | increment => trivial

theorem spans_decodeUpTo {limit n address bytes code}
    (h : decodeUpTo limit n address bytes = .ok code) : ∀ i ∈ code, i.op.Spans := by
  fun_induction decodeUpTo limit n address bytes generalizing code with
  | case1 | case2 =>
      cases h
      exact nofun
  | case3 n address bytes hne ih =>
      obtain ⟨⟨i, rest⟩, hi, h⟩ := bind_eq_ok.mp h
      obtain ⟨is, his, h⟩ := bind_eq_ok.mp h
      cases h
      obtain ⟨⟨⟨opcode, op⟩, rest'⟩, hop, hi⟩ := bind_eq_ok.mp hi
      refine List.forall_mem_cons.mpr ⟨?_, ih i rest his⟩
      obtain ⟨front, hfront, -, -⟩ := operation_ok.mp hop
      dsimp only at hi
      split at hi
      · cases hi
      · obtain ⟨rfl, -⟩ := Prod.mk.inj (Except.ok.inj hi)
        exact spans_of_encodes hfront

end Instruction

theorem Operation.keys_tableCases {low high : Int32} {ts : List BlockId}
    (hlen : (ts.length : Int) = high.toInt - low.toInt + 1) :
    (tableCases low ts).map (·.1.toInt) = (List.range ts.length).map fun i : Nat => low.toInt + i := by
  have hkey : ∀ i < ts.length, (low + Int32.ofNat i).toInt = low.toInt + i := by
    intro i hi
    have hlow := low.le_toInt
    have hhigh := high.toInt_lt
    have hsize : Int32.size = 2 ^ 32 := by decide
    rw [Int32.toInt_add, Int32.toInt_ofNat', Int.add_bmod_bmod]
    exact Int.bmod_eq_of_le (by omega) (by omega)
  refine List.ext_getElem (by simp [tableCases]) fun i h1 h2 => ?_
  simp [tableCases, hkey i (by simpa using h2)]

/-! ## All blocks -/

variable {cf : ControlFlow} {asked : List String}

theorem simulate_ledger {ctx blocks} (h : simulate ctx cf = .ok (blocks, asked)) : ∃ s : Simulation.State,
      Simulation.simulateAll ctx (.ofFlow cf) .initial cf.reversePostorder = .ok s ∧
      s.Ledger (.ofFlow cf) (s.blocks.map (·.id)) ∧ (∀ id, id ∈ s.blocks.map (·.id) ↔ id ∈ cf.reversePostorder) ∧
      blocks.map (·.id) = s.blocks.map (·.id) ∧ ∀ b ∈ blocks, ∃ c ∈ s.blocks, ∃ g, c.SettledBy g b := by
  obtain ⟨s, hs, h⟩ := bind_eq_ok.mp h
  cases h
  obtain ⟨hids, hledger⟩ := (Simulation.ledger_initial (.ofFlow cf)).simulateAll
    cf.flowGraph.nodup_reversePostorder (by simp [Simulation.State.initial]) (fun id hid => hid) hs
  refine ⟨s, hs, hledger, fun id => ?_, Block.map_id_of_link (Duplicates.map_link_resolve ..), fun b hb => ?_⟩
  · rw [hids]
    have hblock : id ∈ cf.reversePostorder → (cf.block? id).isSome = true := ControlFlow.isBlock_of_mem_reversePostorder
    have hnone : id ∉ Simulation.State.initial.blocks.map (·.id) := by simp [Simulation.State.initial]
    exact ⟨fun hid => (hid.resolve_left hnone).1, fun hid => Or.inr ⟨hid, hblock hid⟩⟩
  · exact Duplicates.settledBy_of_mem_resolve hb

theorem Simulation.State.Ledger.exists_vars {s : State} {seen} (h : s.Ledger (.ofFlow cf) seen)
    {t} (ht : t ∈ seen) (hhandler : ∀ e ∈ cf.handlers, e.handler ≠ t) (hsub : t ∉ cf.subroutines) :
    ∃ vars, s.entries.lookup t = some vars := by
  refine Option.isSome_iff_exists.mp ((h.noted t).mpr ⟨ht, ?_, hsub⟩)
  rw [Bool.eq_false_iff, ne_eq, isHandler_iff]
  rintro ⟨e, he, heq⟩
  exact hhandler e he heq

theorem simulate_exits {ctx blocks} (hends : cf.Terminated)
    (h : simulate ctx cf = .ok (blocks, asked)) {b} (hb : b ∈ blocks) :
    ∃ block, cf.block? b.id = some block ∧ b.exit.terminator = block.terminator.onReturn ∧
      b.succs = block.terminator.targets := by
  obtain ⟨s, -, hledger, -, -, hsettled⟩ := simulate_ledger h
  obtain ⟨c, hc, g, hcb⟩ := hsettled b hb
  obtain ⟨block, hblock, hexit⟩ := hledger.exits hends c hc
  rw [← hcb.id] at hblock
  rw [← hcb.terminator] at hexit
  refine ⟨block, hblock, hexit, ?_⟩
  rw [Block.succs, ← Exit.targets_terminator, hexit, Terminator.targets_onReturn]

theorem Exit.eq_switch {x : Exit} {default cases}
    (h : x.terminator = .switch default cases) : ∃ key, x = .switch key default cases := by
  cases x with
  | switch key d cs =>
      cases h
      exact ⟨key, rfl⟩
  | _ => cases h

namespace Simulation

variable {code : List Instruction} {edges : List HandlerEdge} {extra : List Nat}

theorem exit_of_table (hspans : ∀ i ∈ code, i.op.Spans) {block}
    (hblock : block ∈ (ControlFlow.build code edges extra).blocks) {x : Exit}
    (hexit : x.terminator = block.terminator.onReturn) {last}
    (hlast : block.instructions.getLast? = some last) {default : BlockId} {low high : Int32} {ts : List BlockId}
    (hop : last.op = .tableSwitch default low high ts) :
    low.toInt ≤ high.toInt ∧ ∃ key cases, x = .switch key default cases ∧ cases.map (·.2) = ts ∧
      cases.map (·.1.toInt) = (List.range (high.toInt - low.toInt + 1).toNat).map fun i : Nat => low.toInt + i := by
  obtain ⟨first, run, last', hpart, hlast', rfl⟩ := ControlFlow.mem_build hblock
  cases hlast.symm.trans hlast'
  have hmem : last ∈ code := (ControlFlow.infix_of_mem_cutAt hpart).subset (List.mem_of_getLast? hlast)
  have hspan := hspans last hmem
  rw [hop] at hspan
  obtain ⟨hle, hlen⟩ := hspan
  obtain ⟨key, rfl⟩ : ∃ key, x = .switch key default (Operation.tableCases low ts) := by
    refine Exit.eq_switch (hexit.trans ?_)
    simp only [Terminator.ofInstruction, hop, Terminator.onReturn]
  refine ⟨hle, key, _, rfl, Operation.targets_tableCases low ts, ?_⟩
  rw [Operation.keys_tableCases hlen, ← hlen, Int.toNat_natCast]

end Simulation

/-- The blocks that are reached are simulated and end as their code says. Tables have all keys between their
bounds. Blocks that lead to one block leave stacks of one height, unless it has a stack of its own. -/
theorem simulate_keeps_flow {bytes : Bytes} {code : List Instruction}
    (hdecode : Instruction.decodeAll bytes = .ok code) {edges : List HandlerEdge} {extra : List Nat}
    {ctx : MethodContext} {blocks : List Block} {asked : List String}
    (h : simulate ctx (.build code edges extra) = .ok (blocks, asked)) :
    let cf := ControlFlow.build code edges extra
    (Block.Ascending blocks ∧ (blocks.map (·.id)).Perm cf.reversePostorder) ∧
    (∀ b ∈ blocks, ∃ block, cf.block? b.id = some block ∧ b.succs = block.terminator.targets ∧
      b.exit.terminator = block.terminator.onReturn ∧
      ∀ last default low high ts, block.instructions.getLast? = some last →
        last.op = .tableSwitch default low high ts →
        low.toInt ≤ high.toInt ∧ ∃ key cases, b.exit = .switch key default cases ∧ cases.map (·.2) = ts ∧
          cases.map (·.1.toInt) =
            (List.range (high.toInt - low.toInt + 1).toNat).map fun i : Nat => low.toInt + i) ∧
    ∀ p ∈ blocks, ∀ q ∈ blocks, ∀ t ∈ p.succs, t ∈ q.succs → cf.isBlock t = true →
      (∀ e ∈ edges, e.handler ≠ t) → t ∉ cf.subroutines → p.stack.length = q.stack.length := by
  intro cf
  have hends : cf.Terminated := ControlFlow.terminated_build code edges extra
  obtain ⟨s, -, hledger, hreached, hids, hsettled⟩ := simulate_ledger h
  have hascending := simulate_ascending h
  refine ⟨⟨hascending, ?_⟩, fun b hb => ?_, fun p hp q hq t htp htq ht hhandler hsub => ?_⟩
  · refine (List.perm_ext_iff_of_nodup hascending.nodup cf.flowGraph.nodup_reversePostorder).mpr ?_
    rw [hids]
    exact hreached
  · obtain ⟨block, hblock, hexit, hsuccs⟩ := simulate_exits hends h hb
    refine ⟨block, hblock, hsuccs, hexit, fun last default low high ts hlast hop => ?_⟩
    exact Simulation.exit_of_table (Instruction.spans_decodeUpTo hdecode) (ControlFlow.block?_some hblock).1 hexit
      hlast hop
  · obtain ⟨block, hblock, -, hsuccs⟩ := simulate_exits hends h hp
    have hseen : t ∈ s.blocks.map (·.id) := by
      refine (hreached t).mpr (ControlFlow.mem_reversePostorder_of_succ ?_ hblock (hsuccs ▸ htp) ht)
      exact (hreached p.id).mp (hids ▸ List.mem_map_of_mem hp)
    obtain ⟨vars, hvars⟩ := hledger.exists_vars hseen hhandler hsub
    have hheight : ∀ b ∈ blocks, t ∈ b.succs → vars.length = b.stack.length := by
      intro b hb htb
      obtain ⟨c, hc, g, hcb⟩ := hsettled b hb
      exact hledger.height_of_settledBy hc hcb htb hvars
    rw [← hheight p hp htp, hheight q hq htq]

namespace Discipline

/-- A sum on the stack grows around a loop until a table leads out of it. -/
def summing : List Instruction :=
  [⟨0, 0x04, 1, .intConst 1⟩, ⟨1, 0x1a, 1, .load .int 0⟩, ⟨2, 0xaa, 22, .tableSwitch 30 1 2 [24, 29]⟩,
    ⟨24, 0x05, 1, .intConst 2⟩, ⟨25, 0x60, 1, .arith .int .add⟩, ⟨26, 0xa7, 3, .goto 1⟩,
    ⟨29, 0x74, 1, .neg .int⟩, ⟨30, 0xac, 1, .leave (some .int)⟩]

def summingBytes : Bytes :=
  [0x04, 0x1a, 0xaa, 0, 0, 0, 0, 28, 0, 0, 0, 1, 0, 0, 0, 2, 0, 0, 0, 22, 0, 0, 0, 27,
    0x05, 0x60, 0xa7, 0xff, 0xe7, 0x74, 0xac]

end Discipline

theorem simulate_keeps_summing : ∃ blocks asked,
    Instruction.decodeAll Discipline.summingBytes = .ok Discipline.summing ∧
    simulate Discipline.context (.build Discipline.summing [] []) = .ok (blocks, asked) ∧
    blocks.map (·.id) = [0, 1, 24, 29, 30] ∧
    (∃ b ∈ blocks, b.id = 1 ∧ ∃ key cases, b.exit = .switch key 30 cases ∧ cases.map (·.1.toInt) = [1, 2]) ∧
    ∀ p ∈ blocks, ∀ q ∈ blocks, 30 ∈ p.succs → 30 ∈ q.succs → p.stack.length = q.stack.length := by
  have hdecode : Instruction.decodeAll Discipline.summingBytes = .ok Discipline.summing := by decide +kernel
  have hsimulate : (simulate Discipline.context (.build Discipline.summing [] [])).map (·.1.map (·.id)) =
      .ok [0, 1, 24, 29, 30] := by decide +kernel
  obtain ⟨⟨blocks, asked⟩, hs, hids⟩ := map_eq_ok.mp hsimulate
  obtain ⟨-, hexits, hheights⟩ := simulate_keeps_flow hdecode hs
  refine ⟨blocks, asked, hdecode, hs, hids, ?_, fun p hp q hq h30p h30q => ?_⟩
  · obtain ⟨b, hb, hid⟩ := List.mem_map.mp (show 1 ∈ blocks.map (·.id) by simp [hids])
    obtain ⟨block, hblock, -, -, htable⟩ := hexits b hb
    have hlast : ((ControlFlow.build Discipline.summing [] []).block? 1).bind (·.instructions.getLast?) =
        some ⟨2, 0xaa, 22, .tableSwitch 30 1 2 [24, 29]⟩ := by decide +kernel
    rw [← hid, hblock] at hlast
    obtain ⟨-, key, cases, hexit, -, hkeys⟩ := htable _ _ _ _ _ hlast rfl
    exact ⟨b, hb, hid, key, cases, hexit, hkeys.trans (by decide)⟩
  · exact hheights p hp q hq 30 h30p h30q (by decide +kernel) (by simp) (by decide +kernel)

end JvmLift
