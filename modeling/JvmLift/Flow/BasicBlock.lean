import JvmLift.ClassFile.Attribute
import JvmLift.Flow.Graph
import JvmLift.Instruction.Basic

/-!
Basic blocks and the control flow of a method.
-/
namespace JvmLift

inductive Terminator where
  | fallThrough (target : BlockId)
  | goto (target : BlockId)
  | branch (ifTrue ifFalse : BlockId)
  | switch (default : BlockId) (cases : List (Int32 × BlockId))
  | leave
  | throw
  | jsr (target returnTo : BlockId)
  | ret
  deriving DecidableEq, Repr

structure BasicBlock where
  id : BlockId
  instructions : List Instruction
  terminator : Terminator
  deriving DecidableEq, Repr

/-- A protected range and its handler. Without a catch type it catches everything. -/
structure HandlerEdge where
  start : Nat
  stop : Nat
  handler : BlockId
  catchType : Option String
  deriving DecidableEq, Repr

/-- Control flow of a method: blocks in ascending order and the handlers in table order. -/
structure ControlFlow where
  entry : BlockId
  blocks : List BasicBlock
  handlers : List HandlerEdge
  deriving DecidableEq, Repr, Inhabited

def HandlerEdge.covers (e : HandlerEdge) (pc : Nat) : Bool := e.start ≤ pc && pc < e.stop

def Code.handlerEdges (pool : Pool) (c : Code) : Except LiftFault (List HandlerEdge) :=
  c.handlers.mapM fun row => do
    if c.length ≤ row.handlerPc.toNat then throw (.malformedHandler row.handlerPc.toNat)
    let catchType ←
      if row.catchType = 0 then pure none
      else some <$> (pool.className row.catchType).mapError .format
    return ⟨row.startPc.toNat, row.endPc.toNat, row.handlerPc.toNat, catchType⟩

def Terminator.targets : Terminator → List BlockId
  | .fallThrough t | .goto t => [t]
  | .branch t f => if t = f then [t] else [t, f]
  | .switch d cases => sortedSet (cases.map (·.2) ++ [d])
  | .jsr _ returnTo => [returnTo]
  | .leave | .throw | .ret => []

def Terminator.ofInstruction (i : Instruction) : Terminator :=
  match i.op with
  | .goto t => .goto t
  | .ifZero _ t | .ifIntCmp _ t | .ifRefCmp _ t | .ifNull t | .ifNonNull t => .branch t i.next
  | .tableSwitch d low _ ts => .switch d (Operation.tableCases low ts)
  | .lookupSwitch d ps => .switch d ps
  | .leave _ => .leave
  | .throw => .throw
  | .jsr t => .jsr t i.next
  | .ret _ => .ret
  | _ => .fallThrough i.next

namespace BasicBlock

def stop (b : BasicBlock) : Nat :=
  match b.instructions.getLast? with
  | some i => i.next
  | none => b.id

end BasicBlock

namespace ControlFlow

/-- Offsets at which a block starts: the entry, bounds of protected ranges, handlers, branch targets,
what follows a jump, and those asked for. -/
def leaders (instructions : List Instruction) (handlers : List HandlerEdge) (extra : List Nat) : List Nat :=
  0 :: handlers.flatMap (fun e => [e.start, e.stop, e.handler]) ++ extra ++
    instructions.flatMap fun i =>
      i.op.targets ++
        (if i.op.endsFlow || i.op.isConditional || i.op.isJsr then [i.next] else [])

def cutAt (leaders : List Nat) : List Instruction → List (List Instruction)
  | [] => []
  | i :: rest =>
      match cutAt leaders rest with
      | (j :: run) :: runs =>
          if leaders.contains j.offset then [i] :: (j :: run) :: runs else (i :: j :: run) :: runs
      | runs => [i] :: runs

def blockOf? (run : List Instruction) : Option BasicBlock := do
  let first ← run.head?
  let last ← run.getLast?
  return ⟨first.offset, run, .ofInstruction last⟩

def build (instructions : List Instruction) (handlers : List HandlerEdge) (extra : List Nat) : ControlFlow :=
  ⟨0, (cutAt (leaders instructions handlers extra) instructions).filterMap blockOf?, handlers⟩

def block? (cf : ControlFlow) (b : BlockId) : Option BasicBlock := cf.blocks.find? (·.id == b)

def isBlock (cf : ControlFlow) (b : BlockId) : Bool := (cf.block? b).isSome

def succs (cf : ControlFlow) (b : BlockId) : List BlockId :=
  match cf.block? b with
  | some block => block.terminator.targets.filter cf.isBlock
  | none => []

def handlersOf (cf : ControlFlow) (b : BlockId) : List BlockId :=
  ((cf.handlers.filter (·.covers b)).map (·.handler)).eraseReps

def jsrTarget? (cf : ControlFlow) (b : BlockId) : Option BlockId := do
  let block ← cf.block? b
  match block.terminator with
  | .jsr target _ => some target
  | _ => none

def allSuccs (cf : ControlFlow) (b : BlockId) : List BlockId :=
  (cf.succs b ++ (cf.jsrTarget? b).toList ++ cf.handlersOf b).filter cf.isBlock

def preds (cf : ControlFlow) (b : BlockId) : List BlockId :=
  if cf.isBlock b then (cf.blocks.filter (·.terminator.targets.contains b)).map (·.id) else []

def subroutines (cf : ControlFlow) : List BlockId :=
  sortedSet (cf.blocks.filterMap fun b =>
    match b.terminator with
    | .jsr target _ => some target
    | _ => none)

def flowGraph (cf : ControlFlow) : FlowGraph :=
  .ofNodes cf.entry (cf.blocks.map fun b =>
    let succs := cf.succs b.id
    (b.id, ⟨succs, (cf.allSuccs b.id).filter fun s => !succs.contains s⟩))

def reversePostorder (cf : ControlFlow) : List BlockId := cf.flowGraph.reversePostorder

end ControlFlow

end JvmLift
