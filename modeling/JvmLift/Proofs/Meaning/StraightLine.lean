import JvmLift.Proofs.Meaning.Lockstep
import JvmLift.Proofs.Meaning.Settlement

/-!
# Straight-line code

A method that is one block, simulated and rid of its duplicates, does what its instructions do one by one, if nothing
in the block is overtaken.
-/
namespace JvmLift

/-! ## Graphs of one block -/

/-- The graph is one block, without handlers and subroutines, and control leaves the block at its end. -/
structure ControlFlow.IsBlock (cf : ControlFlow) (b : BasicBlock) : Prop where
  entry : cf.entry = b.id
  blocks : cf.blocks = [b]
  handlers : cf.handlers = []
  last : ∃ last, b.instructions.getLast? = some last ∧ b.terminator = .ofInstruction last
  inner : ∀ i ∈ b.instructions.dropLast, Terminator.ofInstruction i = .fallThrough i.next
  jsr : ∀ target returnTo, b.terminator ≠ .jsr target returnTo

theorem FlowGraph.reversePostorder_singleton (b : BlockId) (n : FlowNode) :
    (FlowGraph.ofNodes b [(b, n)]).reversePostorder = [b] := by
  have hnode : (FlowGraph.ofNodes b [(b, n)]).isNode b = true := by simp [isNode, ofNodes]
  have hsize : (FlowGraph.ofNodes b [(b, n)]).nodes.size = 1 := by simp [ofNodes, Std.TreeMap.size_insert]
  unfold reversePostorder
  rw [show (FlowGraph.ofNodes b [(b, n)]).entry = b from rfl, if_pos hnode, hsize]
  simp [visit]

namespace BasicBlock

def start (b : BasicBlock) : Frame := ⟨.empty, 0, [], [], b.id⟩

/-- A block that is entered with an empty stack, before its duplicates are settled, and the frame in
which it ends. -/
def simulated (ctx : MethodContext) (b : BasicBlock) : Except LiftFailure (Frame × Block) := do
  let (f, _, exit) ← Simulation.runSteps ctx b.start [] none b.instructions
  return (f, ⟨b.id, f.out, exit.getD (.ofTerminator b.stop b.terminator), f.stack.reverse⟩)

/-- Nothing in a block is overtaken: what is on the stack by no statement, and a duplicate by no write to
what stands for it. -/
def steady (ctx : MethodContext) (b : BasicBlock) : Bool :=
  Sim.orderly ctx b.instructions b.start &&
    match b.simulated ctx with
    | .ok (f, blk) => f.duplicates.undisturbed blk f.nextTemp
    | .error _ => false

end BasicBlock

namespace Simulation

variable {ctx : MethodContext} {cf : ControlFlow} {b : BasicBlock}

theorem spillBack_eq {entries} (h : ∀ t vars, entries.lookup t = some vars → vars = [])
    (blk : Block) : spillBack entries blk = blk := by
  refine spillBack_induction (P := (· = blk)) rfl fun t vars c ht hc => ?_
  rw [hc, h t vars ht]
  simp [appendSpills, spills]

theorem simulateAll_isBlock (hcf : cf.IsBlock b) {s}
    (h : simulateAll ctx (.ofFlow cf) .initial (Plan.ofFlow cf).order = .ok s) :
    ∃ f blk, b.simulated ctx = .ok (f, blk) ∧ s.duplicates = f.duplicates ∧ s.nextTemp = f.nextTemp ∧
      s.blocks = [blk] := by
  have horder : (Plan.ofFlow cf).order = [b.id] := by
    show cf.flowGraph.reversePostorder = _
    unfold ControlFlow.flowGraph
    rw [hcf.entry, hcf.blocks]
    exact FlowGraph.reversePostorder_singleton ..
  have hblock : (Plan.ofFlow cf).flow.block? b.id = some b := by
    show cf.block? b.id = some b
    simp [ControlFlow.block?, hcf.blocks]
  have hhandler : (Plan.ofFlow cf).isHandler b.id = false := by simp [Plan.isHandler, Plan.ofFlow, hcf.handlers]
  have hsub : (Plan.ofFlow cf).subroutines = [] := by
    show cf.subroutines = []
    unfold ControlFlow.subroutines
    rw [hcf.blocks]
    cases ht : b.terminator with
    | jsr target returnTo => exact absurd ht (hcf.jsr target returnTo)
    | _ =>
        rw [List.filterMap_cons_none (by simp [ht])]
        rfl
  have henter : enter (.ofFlow cf) .initial b.id = .ok ([], { State.initial with entries := [(b.id, [])] }) := by
    unfold enter
    rw [hhandler, hsub]
    rfl
  rw [horder] at h
  unfold simulateAll at h
  rw [hblock] at h
  obtain ⟨s1, hs1, h⟩ := bind_eq_ok.mp h
  cases h
  obtain ⟨stack, s0, f, asked, exit, hs0, hsteps, -, rfl⟩ := simulateBlock_inv hs1
  cases henter.symm.trans hs0
  refine ⟨f, _, bind_eq_ok.mpr ⟨_, hsteps, rfl⟩, rfl, rfl, ?_⟩
  rw [spillBack_eq]
  · rfl
  · intro t vars ht
    rw [List.lookup_cons] at ht
    split at ht
    · cases ht
      rfl
    · cases ht

end Simulation

/-! ## Meaning -/

theorem BasicBlock.tidy_start (b : BasicBlock) : b.start.Tidy where
  stack := nofun
  values _ _ h := nomatch h
  copies := rfl
  reads := nofun
  writes := nofun
  count := Nat.le_refl _

/-- A method of one block does what its instructions do: the same operations on the heap with the same
operands and in the same order, the same contents of the slots, and the same way out. -/
theorem execBlock_simulate {ctx : MethodContext} {cf : ControlFlow} {b : BasicBlock} {blocks : List Block}
    {asked : List String} {st : List Entry} (hcf : cf.IsBlock b) (hlocals : ctx.locals = .empty)
    (hcheck : Checker.run true ctx b.instructions [] = some st) (hsteady : b.steady ctx = true)
    (hsim : simulate ctx cf = .ok (blocks, asked)) :
    ∃ block, blocks = [block] ∧ ∀ (V H : Type) (M : Model V H) (σ : Env V) (w : World V H),
      (∀ i ∈ b.instructions, i.op.isThreeWay = true → ∀ l r, M.unordered l r = false) →
      (∀ n, ∃ v, σ.slots n = .value v) → (ctx.isStatic = false → σ.self = σ.slots 0) →
      Machine.run M ctx b.instructions ⟨[], σ.slots, w⟩ = some (M.execBlock .empty σ block w) := by
  obtain ⟨s, hall, hresult⟩ := bind_eq_ok.mp hsim
  cases hresult
  obtain ⟨f, blk, hblk, hds, htemp, hblocks⟩ := Simulation.simulateAll_isBlock hcf hall
  obtain ⟨block, hblock⟩ := f.duplicates.resolve_singleton blk f.nextTemp
  refine ⟨block, by rw [hds, htemp, hblocks, hblock], fun V H M σ w hordered hvalues hself => ?_⟩
  simp only [BasicBlock.steady, hblk, Bool.and_eq_true] at hsteady
  obtain ⟨⟨f, asked', exit⟩, hsteps, hpure⟩ := bind_eq_ok.mp hblk
  cases hpure
  obtain ⟨last, hlast, hterm⟩ := hcf.last
  have hstart : M.InStep ctx b.start [] σ w ⟨[], σ.slots, w⟩ :=
    { stack := .nil, slots := rfl, values := hvalues, self := hself, tidy := b.tidy_start, fits := .nil, sized := rfl }
  obtain ⟨ht, hcount, hexit, new, hout, hrun⟩ := hstart.run hlocals hordered hcf.inner hlast hcheck hsteady.1 hsteps
    (.refl f.duplicates)
  have hstop : b.stop = last.next := by simp [BasicBlock.stop, hlast]
  obtain rfl : f.out = new := hout
  rw [hrun, Model.execBlock_resolve ht hcount rfl (by rwa [hstop, hterm]) hsteady.2 hblock, Model.execBlock, hstop, hterm]

/-! ## Blocks that are not steady -/

/-- The integer that a datum counts as, if it is a number. -/
def Datum.number : Datum (Option Int32) → Option Int32
  | .value v => v
  | .fresh .. => some 0

/-- Integers, and something that is not a number. Each operation on the heap gives the number of
operations before it. -/
def Model.counting : Model (Option Int32) Int32 where
  int := some
  long n := some n.toInt32
  float _ := some 0
  double _ := some 0
  string _ := some 0
  classOf _ := some 0
  null := some 0
  constant _ := some 0
  arith _ a b := do return (← a.number) + (← b.number)
  neg a := do return -(← a.number)
  convert _ a := a.number
  instanceOf _ _ := true
  compare op a b :=
    match a.number, b.number with
    | some x, some y => op.ofInts x y
    | _, _ => op == .ne
  order a b :=
    match a.number, b.number with
    | some x, some y => if x < y then -1 else if x = y then 0 else 1
    | _, _ => 1
  unordered a b := a.number.isNone || b.number.isNone
  perform _ _ n := (some n, n + 1)
  compare_int _ _ _ := rfl
  compare_eq l r := by
    cases l.number with
    | none => rfl
    | some x => cases r.number <;> simp [CmpOp.ofInts, bne]
  compare_order op l r h := by
    cases hl : l.number with
    | none => simp [hl] at h
    | some x =>
        cases hr : r.number with
        | none => simp [hr] at h
        | some y => exact op.ofInts_order x y

namespace StraightLine

/-- A static method that may call `int f()` and `void g()`. -/
def context : MethodContext :=
  ⟨.ofConstants [.ofText "a/Main", .classRef 1, .ofText "f", .ofText "()I", .nameAndType 3 4, .methodRef 2 5,
    .ofText "g", .ofText "()V", .nameAndType 7 8, .methodRef 2 9], ⟨[]⟩, ⟨none, []⟩, .empty, true, .int⟩

def f : Action := .call .static "a/Main" "f" "()I"

def g : Action := .call .static "a/Main" "g" "()V"

def blockOf (code : List Instruction) : BasicBlock := ⟨0, code, .leave⟩

/-- The result of `f` is stored and also kept on the stack, over a call of `g`. -/
def keptCopy : List Instruction :=
  [⟨0, 0xb8, 3, .invokeStatic 6⟩, ⟨3, 0x59, 1, .dup⟩, ⟨4, 0x3b, 1, .store .int 0⟩, ⟨5, 0x1a, 1, .load .int 0⟩,
    ⟨6, 0x60, 1, .arith .int .add⟩, ⟨7, 0xb8, 3, .invokeStatic 10⟩, ⟨10, 0xac, 1, .leave (some .int)⟩]

/-- The result of `f` stays on the stack over a call of `g`. -/
def keptCall : List Instruction :=
  [⟨0, 0xb8, 3, .invokeStatic 6⟩, ⟨3, 0xb8, 3, .invokeStatic 10⟩, ⟨6, 0xac, 1, .leave (some .int)⟩]

/-- The result of `f` is stored and also kept on the stack while the local is overwritten. -/
def keptOverWrite : List Instruction :=
  [⟨0, 0xb8, 3, .invokeStatic 6⟩, ⟨3, 0x59, 1, .dup⟩, ⟨4, 0x3b, 1, .store .int 0⟩, ⟨5, 0x03, 1, .intConst 0⟩,
    ⟨6, 0x3b, 1, .store .int 0⟩, ⟨7, 0xac, 1, .leave (some .int)⟩]

/-- The result of a comparison that is biased for operands that are not numbers. -/
def compared (bias : Bool) : List Instruction :=
  [⟨0, 0x22, 1, .load .float 0⟩, ⟨1, 0x23, 1, .load .float 1⟩, ⟨2, if bias then 0x96 else 0x95, 1, .floatCompare bias⟩,
    ⟨3, 0xac, 1, .leave (some .int)⟩]

def filled (v : Option Int32) : Env (Option Int32) := ⟨fun _ => .value v, fun _ => .value v, .value v⟩

structure Visible where
  trace : List (Action × List (Datum (Option Int32)))
  left : Option (Departure (Option Int32))
  deriving DecidableEq

def Visible.ofResult (r : Result (Option Int32) Int32) : Visible := ⟨r.world.trace, r.left⟩

def machineRuns (v : Option Int32) (code : List Instruction) : Option Visible :=
  (Machine.run .counting context code ⟨[], (filled v).slots, ⟨5, []⟩⟩).map .ofResult

def blocksRun (v : Option Int32) (code : List Instruction) : Option (List Visible) :=
  (simulate context (.build code [] [])).toOption.map fun r =>
    r.1.map fun b => .ofResult (Model.counting.execBlock .empty (filled v) b ⟨5, []⟩)

theorem isBlock_build {code} (hentry : (ControlFlow.build code [] []).entry = 0)
    (hblocks : (ControlFlow.build code [] []).blocks = [blockOf code])
    (hlast : code.getLast?.map Terminator.ofInstruction = some .leave)
    (hinner : ∀ i ∈ code.dropLast, Terminator.ofInstruction i = .fallThrough i.next) :
    (ControlFlow.build code [] []).IsBlock (blockOf code) where
  entry := hentry
  blocks := hblocks
  handlers := rfl
  last := by
    obtain ⟨last, hget, hterm⟩ := Option.map_eq_some_iff.mp hlast
    exact ⟨last, hget, hterm.symm⟩
  inner := hinner
  jsr := nofun

end StraightLine

open StraightLine

theorem execBlock_simulate_keptCopy : ∃ block asked, simulate context (.build keptCopy [] []) = .ok ([block], asked) ∧
      Machine.run .counting context keptCopy ⟨[], (filled none).slots, ⟨5, []⟩⟩ =
        some (Model.counting.execBlock .empty (filled none) block ⟨5, []⟩) := by
  have hcf : (ControlFlow.build keptCopy [] []).IsBlock (blockOf keptCopy) :=
    isBlock_build (by decide +kernel) (by decide +kernel) (by decide) (by decide)
  have hcheck : Checker.run true context keptCopy [] = some [] := by decide +kernel
  have hplain : ∀ i ∈ keptCopy, i.op.isThreeWay = false := by decide
  have hlength : (simulate context (.build keptCopy [] [])).map (·.1.length) = .ok 1 := by decide +kernel
  obtain ⟨⟨blocks, asked⟩, hs, -⟩ := map_eq_ok.mp hlength
  obtain ⟨block, rfl, hrun⟩ := execBlock_simulate hcf rfl hcheck (by decide +kernel) hs
  refine ⟨block, asked, hs, hrun _ _ .counting (filled none) ⟨5, []⟩ ?_ (fun _ => ⟨none, rfl⟩) (by simp [context])⟩
  intro i hi hthree
  cases (hplain i hi).symm.trans hthree

/-- Where a call is overtaken by another one, they are made in the other order; a local stands for a copy
of what was stored into it although it is written again; and what is not a number compares the same under
both biases. -/
theorem execBlock_simulate_overtaken : (∀ code ∈ [keptCall, keptOverWrite, compared false, compared true],
        (ControlFlow.build code [] []).IsBlock (blockOf code)) ∧
      machineRuns (some 0) keptCall = some ⟨[(f, []), (g, [])], some (.returned (some (.value (some 5))))⟩ ∧
      blocksRun (some 0) keptCall = some [⟨[(g, []), (f, [])], some (.returned (some (.value (some 6))))⟩] ∧
      machineRuns (some 0) keptOverWrite = some ⟨[(f, [])], some (.returned (some (.value (some 5))))⟩ ∧
      blocksRun (some 0) keptOverWrite = some [⟨[(f, [])], some (.returned (some (.value (some 0))))⟩] ∧
      machineRuns none (compared false) = some ⟨[], some (.returned (some (.value (some (-1)))))⟩ ∧
      machineRuns none (compared true) = some ⟨[], some (.returned (some (.value (some 1))))⟩ ∧
      ∀ bias, blocksRun none (compared bias) = some [⟨[], some (.returned (some (.value (some 1))))⟩] := by
  refine ⟨?_, by decide +kernel, by decide +kernel, by decide +kernel, by decide +kernel, by decide +kernel,
    by decide +kernel, by decide +kernel⟩
  simp only [List.forall_mem_cons, List.not_mem_nil, false_implies, implies_true, and_true]
  refine ⟨?_, ?_, ?_, ?_⟩ <;>
    exact isBlock_build (by decide +kernel) (by decide +kernel) (by decide) (by decide)

end JvmLift
