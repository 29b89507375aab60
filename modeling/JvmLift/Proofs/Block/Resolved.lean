import JvmLift.Proofs.Block.Backing
import JvmLift.Proofs.Block.Simulate

/-!
# No duplicate is left

Between blocks the reads of duplicates travel with the stacks that blocks leave, and with the stores that keep these
stacks in variables. What computes a duplicate stays in its block.
-/
namespace JvmLift

open List

variable {blocks : List Block}

namespace Block

theorem mem_insert {b} (hnew : ∀ c ∈ blocks, c.id ≠ b.id) {c} : c ∈ b.insert blocks ↔ c = b ∨ c ∈ blocks := by
  induction blocks with
  | nil => simp [insert]
  | cons c' rest ih =>
      rw [forall_mem_cons] at hnew
      unfold insert
      split
      · simp
      · rw [if_neg fun h => hnew.1 h.symm, mem_cons, ih hnew.2, mem_cons]
        exact or_left_comm

end Block

namespace Simulation

/-! ## Spills -/

variable {vars : SpillVars} {stack : List Expr} {b : Block}

theorem copyIds_appendSpills : (appendSpills vars stack b).copyIds = b.copyIds := by
  have hspills : (spills b.stop vars stack).filterMap (·.stmt.copyId?) = [] := by
    rw [spills, filterMap_filterMap, filterMap_eq_nil_iff]
    rintro ⟨v, value⟩ -
    cases v <;> rfl
  rw [Block.copyIds, appendSpills, filterMap_append, hspills, append_nil, Block.copyIds]

theorem mem_nodes_appendSpills {x} (h : x ∈ (appendSpills vars stack b).nodes) :
    x ∈ b.nodes ∨ ∃ e ∈ stack, x ∈ e.nodes := by
  simp only [Block.nodes, appendSpills, flatMap_append, mem_append] at h ⊢
  rcases h with ((h | h) | h) | h
  · exact .inl (.inl (.inl h))
  · obtain ⟨s, hs, hx⟩ := mem_flatMap.mp h
    obtain ⟨⟨v, value⟩, hmem, hs⟩ := mem_filterMap.mp hs
    obtain ⟨v, -, rfl⟩ := Option.map_eq_some_iff.mp hs
    exact .inr ⟨value, (of_mem_zip hmem).2, by simpa [Stmt.nodes, Stmt.operands] using hx⟩
  · exact .inl (.inl (.inr h))
  · exact .inl (.inr h)

theorem Backs.spill {ds : Duplicates} (h : ds.Backs blocks) (hstack : ∀ e ∈ stack, ds.Holds e) (source : BlockId)
    (vars : SpillVars) : ds.Backs (blocks.map fun b => if b.id = source then appendSpills vars stack b else b) := by
  refine ⟨fun id => ?_, fun b hb id hid => ?_, h.nested⟩
  · rw [flatMap_map, ← h.computed id]
    have hsame : ∀ b : Block, (if b.id = source then appendSpills vars stack b else b).copyIds = b.copyIds := fun b => by
      split
      · exact copyIds_appendSpills
      · rfl
    simp only [hsame]
  · obtain ⟨c, hc, rfl⟩ := mem_map.mp hb
    split at hid
    · rcases mem_nodes_appendSpills hid with hid | ⟨e, he, hid⟩
      · exact h.read c hc id hid
      · exact hstack e he id hid
    · exact h.read c hc id hid

theorem Backs.spillAll {ds : Duplicates} (h : ds.Backs blocks) {incoming : List Delivery}
    (hstacks : ∀ d ∈ incoming, ∀ e ∈ d.stack, ds.Holds e) (vars : SpillVars) : ds.Backs (incoming.foldl
      (fun blocks d => blocks.map fun b => if b.id = d.source then appendSpills vars d.stack b else b) blocks) := by
  induction incoming generalizing blocks with
  | nil => exact h
  | cons d rest ih =>
      rw [forall_mem_cons] at hstacks
      exact ih (Backs.spill h hstacks.1 d.source vars) hstacks.2

theorem spillBack_spec (entries : List (BlockId × SpillVars)) (b : Block) :
    (spillBack entries b).copyIds = b.copyIds ∧ ∀ x ∈ (spillBack entries b).nodes, x ∈ b.nodes := by
  suffices h : (spillBack entries b).stack = b.stack ∧ (spillBack entries b).copyIds = b.copyIds ∧
      ∀ x ∈ (spillBack entries b).nodes, x ∈ b.nodes from h.2
  refine spillBack_induction (P := fun c => c.stack = b.stack ∧ c.copyIds = b.copyIds ∧ ∀ x ∈ c.nodes, x ∈ b.nodes)
    ⟨rfl, rfl, fun x hx => hx⟩ ?_
  rintro t vars c - ⟨hstack, hcopies, hnodes⟩
  refine ⟨hstack, copyIds_appendSpills.trans hcopies, fun x hx => ?_⟩
  rcases mem_nodes_appendSpills hx with hx | ⟨e, he, hx⟩
  · exact hnodes x hx
  · exact mem_append_right _ (mem_flatMap.mpr ⟨e, hstack ▸ he, hx⟩)

/-! ## Merging -/

theorem reuses_mergeEntries (allSeen : Bool) (n : UInt16) (incoming : List (List Expr)) (first : List Expr) :
    ∀ e ∈ (mergeEntries allSeen n incoming first).1, e.Reuses first := by
  induction first generalizing n incoming with
  | nil => exact nofun
  | cons x rest ih =>
      have hentry : ∀ values, (mergeEntry allSeen n values x).1.Reuses (x :: rest) := by
        intro values
        unfold mergeEntry
        split
        · exact Expr.reuses_of_mem mem_cons_self
        · simp [Expr.Reuses, Expr.nodes]
      rw [mergeEntries, forall_mem_cons]
      exact ⟨hentry _, fun e he => (ih _ _ e he).mono (subset_cons_self x rest)⟩

theorem reuses_mergeStacks {id incoming preds n n'}
    (h : mergeStacks id incoming preds n = .ok (stack, vars, n')) : ∀ e ∈ stack, e.Reuses incoming.flatten := by
  unfold mergeStacks at h
  split at h
  · cases h
    exact nofun
  · split at h
    · cases h
    · obtain rfl : Prod.fst _ = stack := congrArg Prod.fst (Except.ok.inj h)
      exact fun e he => (reuses_mergeEntries _ _ _ _ e he).mono (by simp)

/-! ## Blocks -/

structure State.Backed (done : List BlockId) (s : State) : Prop where
  ids : ∀ b ∈ s.blocks, b.id ∈ done
  backs : s.duplicates.Backs s.blocks
  pending : ∀ d ∈ s.pending, ∀ e ∈ d.stack, s.duplicates.Holds e

variable {ctx : MethodContext} {p : Plan} {s s' : State} {done : List BlockId}

theorem State.Backed.enter {id : BlockId} (h : s.Backed done) (henter : enter p s id = .ok (stack, s')) :
    s'.Backed done ∧ s'.duplicates = s.duplicates ∧ ∀ e ∈ stack, s.duplicates.Holds e := by
  have hids : ∀ b ∈ s'.blocks, b.id ∈ done := by
    intro b hb
    have hmem := mem_map_of_mem (f := (·.id)) hb
    rw [Block.map_id_of_link (map_link_enter henter)] at hmem
    obtain ⟨c, hc, hid⟩ := mem_map.mp hmem
    exact hid ▸ h.ids c hc
  unfold Simulation.enter at henter
  split at henter
  · cases henter
    exact ⟨h, rfl, by simp [Duplicates.Holds, Expr.nodes]⟩
  split at henter
  · cases henter
    exact ⟨h, rfl, by simp [Duplicates.Holds, Expr.nodes]⟩
  obtain ⟨⟨stack, vars, n⟩, hmerge, henter⟩ := bind_eq_ok.mp henter
  cases henter
  have hincoming : ∀ d ∈ s.pending.filter (·.target == id), ∀ e ∈ d.stack, s.duplicates.Holds e :=
    fun d hd => h.pending d (mem_of_mem_filter hd)
  have hpending : ∀ d ∈ s.pending.filter (·.target != id), ∀ e ∈ d.stack, s.duplicates.Holds e :=
    fun d hd => h.pending d (mem_of_mem_filter hd)
  refine ⟨⟨hids, Backs.spillAll h.backs hincoming vars, hpending⟩, rfl, fun e he => ?_⟩
  refine .reuse (fun x hx => ?_) (reuses_mergeStacks hmerge e he)
  obtain ⟨es, hes, hx⟩ := mem_flatten.mp hx
  obtain ⟨d, hd, rfl⟩ := mem_map.mp hes
  exact hincoming d hd x hx

variable {f : Frame} {asked asked' : List String} {is : List Instruction}

theorem backed_runSteps {base f' exit exit'}
    (h : runSteps ctx f asked exit is = .ok (f', asked', exit')) (hf : f.Backed base)
    (hexit : ∀ e ∈ exit.bind Exit.operand?, f.Holds e) :
    f'.Backed base ∧ f.duplicates.Le f'.duplicates ∧ ∀ e ∈ exit'.bind Exit.operand?, f'.Holds e := by
  induction is generalizing f asked exit with
  | nil =>
      cases h
      exact ⟨hf, .refl _, hexit⟩
  | cons i is ih =>
      unfold runSteps at h
      split at h
      · rename_i exit1 f1 hstep
        obtain ⟨hf1, hle1, hexit1⟩ := (Sim.steady_step ctx i).backs hf nofun hstep
        obtain ⟨hf', hle', hexit'⟩ := ih h hf1 (by simpa using hexit1)
        exact ⟨hf', hle1.trans hle', hexit'⟩
      · cases h

theorem spares_runSteps {f' exit exit'}
    (h : runSteps ctx f asked exit is = .ok (f', asked', exit')) (hf : ∀ s ∈ f.out, s.stmt.writesStack = false) :
    ∀ s ∈ f'.out, s.stmt.writesStack = false := by
  induction is generalizing f asked exit with
  | nil =>
      cases h
      exact hf
  | cons i is ih =>
      unfold runSteps at h
      split at h
      · rename_i exit1 f1 hstep
        exact ih h fun s hs => ((Sim.steady_step ctx i).spares hstep s hs).elim (hf s) id
      · cases h

theorem operand?_ofTerminator (stop : Nat) (t : Terminator) : (Exit.ofTerminator stop t).operand? = none := by
  cases t <;> rfl

theorem State.Backed.leave {more b} (h : s.Backed done) (hnew : b.id ∉ done)
    (hf : f.Backed s.duplicates.values.length) (hle : s.duplicates.Le f.duplicates) (hstmts : b.stmts = f.out)
    (hstack : ∀ e ∈ b.stack, f.Holds e) (hexit : ∀ e ∈ b.exit.operand?, f.Holds e)
    (hmore : ∀ d ∈ more, d.stack = b.stack) (entries : List (BlockId × SpillVars)) :
    State.Backed (b.id :: done) { s with
      duplicates := f.duplicates
      nextTemp := f.nextTemp
      asked
      pending := s.pending ++ more
      blocks := (spillBack entries b).insert s.blocks } := by
  have hid : (spillBack entries b).id = b.id := congrArg Prod.fst (link_spillBack entries b)
  obtain ⟨hcopies, hnodes⟩ := spillBack_spec entries b
  have hmem : ∀ c, c ∈ (spillBack entries b).insert s.blocks ↔ c = spillBack entries b ∨ c ∈ s.blocks := by
    refine fun c => Block.mem_insert fun c' hc' heq => hnew ?_
    rw [← hid, ← heq]
    exact h.ids c' hc'
  have hread : ∀ n, .dupLoad n ∈ b.nodes → n < f.duplicates.values.length := by
    intro n hn
    simp only [Block.nodes_eq, Block.operands, mem_flatMap, mem_append, Option.mem_toList] at hn
    obtain ⟨e, (⟨st, hst, he⟩ | he) | he, hn⟩ := hn
    · exact hf.out st (hstmts ▸ hst) e he n hn
    · exact hexit e he n hn
    · exact hstack e he n hn
  refine ⟨fun c hc => ?_, ⟨fun n => ?_, fun c hc n hn => ?_, hf.nested⟩, fun d hd => ?_⟩
  · rcases (hmem c).mp hc with rfl | hc
    · exact hid ▸ mem_cons_self
    · exact mem_cons_of_mem _ (h.ids c hc)
  · have hjoin : n ∈ ((spillBack entries b).insert s.blocks).flatMap Block.copyIds ↔
        n ∈ b.copyIds ∨ n ∈ s.blocks.flatMap Block.copyIds := by
      simp only [mem_flatMap, hmem, or_and_right, exists_or, exists_eq_left, hcopies]
    rw [hjoin, h.backs.computed n, Block.copyIds, hstmts, hf.computed n]
    have hbase := hf.le
    show _ ↔ n < f.duplicates.values.length
    omega
  · rcases (hmem c).mp hc with rfl | hc
    · exact hread n (hnodes _ hn)
    · exact Nat.lt_of_lt_of_le (h.backs.read c hc n hn) hf.le
  · rcases mem_append.mp hd with hd | hd
    · exact fun e he => (h.pending d hd e he).mono hle
    · exact hmore d hd ▸ hstack

theorem State.Backed.simulateBlock {block} (h : s.Backed done) (hnew : block.id ∉ done)
    (hblock : simulateBlock ctx p s block = .ok s') : s'.Backed (block.id :: done) := by
  obtain ⟨stack, s1, f, asked, exit, henter, hsteps, -, rfl⟩ := simulateBlock_inv hblock
  obtain ⟨h1, hds, hstack⟩ := h.enter henter
  have hstart : Frame.Backed s1.duplicates.values.length ⟨s1.duplicates, s1.nextTemp, stack.reverse, [], block.id⟩ :=
    ⟨Nat.le_refl _, fun e he => hds ▸ hstack e (mem_reverse.mp he), nofun, h1.backs.nested, fun id => by simp⟩
  obtain ⟨hf, hle, hexit⟩ := backed_runSteps hsteps hstart nofun
  have hoperand : ∀ e ∈ (exit.getD (.ofTerminator block.stop block.terminator)).operand?, f.Holds e := by
    cases exit with
    | none => simp [operand?_ofTerminator]
    | some exit => exact hexit
  refine h1.leave (b := ⟨block.id, f.out, _, f.stack.reverse⟩) hnew hf hle rfl
    (fun e he => hf.stack e (mem_reverse.mp he)) hoperand (fun d hd => ?_) _
  obtain ⟨t, -, rfl⟩ := mem_map.mp hd
  rfl

theorem backed_initial : State.initial.Backed [] where
  ids := by simp [State.initial]
  backs := by constructor <;> simp [State.initial, Duplicates.empty, Duplicates.get?]
  pending := by simp [State.initial]

theorem State.Backed.simulateAll {order} (h : s.Backed done) (hnodup : order.Nodup)
    (hnew : ∀ id ∈ order, id ∉ done) (hall : simulateAll ctx p s order = .ok s') : s'.duplicates.Backs s'.blocks := by
  induction order generalizing s done with
  | nil =>
      cases hall
      exact h.backs
  | cons id rest ih =>
      rw [nodup_cons] at hnodup
      rw [forall_mem_cons] at hnew
      unfold Simulation.simulateAll at hall
      split at hall
      · exact ih h hnodup.2 hnew.2 hall
      · rename_i block hblock
        obtain ⟨s1, hs1, hall⟩ := bind_eq_ok.mp hall
        have hid := (ControlFlow.block?_some hblock).2
        refine ih (h.simulateBlock (hid ▸ hnew.1) hs1) hnodup.2 (fun id' hid' => ?_) hall
        rw [hid, mem_cons, not_or]
        exact ⟨fun heq => hnodup.1 (heq ▸ hid'), hnew.2 id' hid'⟩

end Simulation

/-- The statements that compute duplicates and the expressions that read them are all resolved. -/
theorem simulate_resolves_duplicates (ctx : MethodContext) (cf : ControlFlow) {blocks : List Block}
    {asked : List String} (h : simulate ctx cf = .ok (blocks, asked)) :
    ∀ b ∈ blocks, (∀ s ∈ b.stmts, ∀ id, s.stmt ≠ .dupStore id) ∧ ∀ id, .dupLoad id ∉ b.nodes := by
  unfold simulate at h
  obtain ⟨s, hs, h⟩ := bind_eq_ok.mp h
  cases h
  have hbacks := Simulation.backed_initial.simulateAll cf.flowGraph.nodup_reversePostorder (by simp) hs
  intro b hb
  obtain ⟨hcopies, hloads⟩ := hbacks.resolve s.nextTemp b hb
  exact ⟨fun st hst id heq => by simpa [heq, Stmt.copyId?] using hcopies st hst, hloads⟩

/-- A copy of a sum and two copies of the negated sum are taken over a branch and added. -/
def Discipline.copiesOverBranch : List Instruction :=
  [⟨0, 0x1a, 1, .load .int 0⟩, ⟨1, 0x1b, 1, .load .int 1⟩, ⟨2, 0x60, 1, .arith .int .add⟩, ⟨3, 0x59, 1, .dup⟩,
    ⟨4, 0x74, 1, .neg .int⟩, ⟨5, 0x59, 1, .dup⟩, ⟨6, 0x1a, 1, .load .int 0⟩, ⟨7, 0x99, 3, .ifZero .eq 11⟩,
    ⟨10, 0x00, 1, .nop⟩, ⟨11, 0x60, 1, .arith .int .add⟩, ⟨12, 0x60, 1, .arith .int .add⟩,
    ⟨13, 0xac, 1, .leave (some .int)⟩]

theorem simulate_copiesOverBranch : ∃ blocks asked,
    simulate Discipline.context (.build Discipline.copiesOverBranch [] []) = .ok (blocks, asked) ∧
      blocks.length = 3 ∧
      ∀ b ∈ blocks, (∀ s ∈ b.stmts, ∀ id, s.stmt ≠ .dupStore id) ∧ ∀ id, .dupLoad id ∉ b.nodes := by
  have hlength : (simulate Discipline.context (.build Discipline.copiesOverBranch [] [])).map (·.1.length) = .ok 3 := by
    decide +kernel
  obtain ⟨r, hs, hr⟩ := map_eq_ok.mp hlength
  exact ⟨r.1, r.2, hs, hr, simulate_resolves_duplicates _ _ hs⟩

end JvmLift
