import JvmLift.Block.Step
import JvmLift.Proofs.Meaning.Values

/-!
# What instructions do

Instructions work on an operand stack of data. Whether an entry takes two slots is known from the
instruction that pushed it. Operations on the heap are performed when their instruction is executed.
-/
namespace JvmLift

/-- Entries of the operand stack, the top first: does an entry take two slots, and what it holds. -/
abbrev OperandStack (V : Type) := List (Bool × Datum V)

structure Machine (V H : Type) where
  stack : OperandStack V
  slots : UInt16 → Datum V
  world : World V H

/-- What an instruction does. Operands are taken off the stack and given in the order in which they
were pushed. -/
inductive Behaviour (V H : Type) where
  | compute (n : Nat) (wide : Bool) (run : List (Datum V) → World V H → Datum V × World V H)
  | perform (n : Nat) (run : List (Datum V) → World V H → World V H)
  | depart (n : Nat) (left : List (Datum V) → Departure V)
  | load (wide : Bool) (slot : UInt16)
  | store (slot : UInt16)
  | increment (slot : UInt16) (amount : Int32)
  | shuffle (form : OperandStack V → Option (OperandStack V))
  | initObject (n : Nat) (kind : InvokeKind) (owner descriptor : String)

/-! ## Forms of the stack instructions -/

namespace OperandStack

variable {V : Type}

/-- The entries in the topmost slots and those below. An entry that takes two slots is not split. -/
def takeSlots : Nat → OperandStack V → Option (OperandStack V × OperandStack V)
  | 0, s => some ([], s)
  | slots + 1, (false, a) :: s => (takeSlots slots s).map fun r => ((false, a) :: r.1, r.2)
  | slots + 2, (true, a) :: s => (takeSlots slots s).map fun r => ((true, a) :: r.1, r.2)
  | _, _ => none

def pop (slots : Nat) (s : OperandStack V) : Option (OperandStack V) := (takeSlots slots s).map (·.2)

def dup (copied under : Nat) (s : OperandStack V) : Option (OperandStack V) := do
  let (top, s) ← takeSlots copied s
  let (middle, s) ← takeSlots under s
  return top ++ (middle ++ (top ++ s))

def swap : OperandStack V → Option (OperandStack V)
  | (false, a) :: (false, b) :: s => some ((false, b) :: (false, a) :: s)
  | _ => none

end OperandStack

/-! ## Behaviour of instructions -/

def ValueKind.isWide (kind : ValueKind) : Bool := (ErasedType.ofValueKind kind).isWide

namespace Model

variable {V H : Type} (M : Model V H)

def unary (f : Datum V → Datum V) : List (Datum V) → World V H → Datum V × World V H
  | [a], w => (f a, w)
  | _, w => (.value M.null, w)

def binary (f : Datum V → Datum V → Datum V) : List (Datum V) → World V H → Datum V × World V H
  | [a, b], w => (f a b, w)
  | _, w => (.value M.null, w)

def decideBy (f : Datum V → Bool) (taken other : BlockId) : List (Datum V) → Departure V
  | [a] => .to (if f a then taken else other)
  | _ => .to other

def decideBy₂ (f : Datum V → Datum V → Bool) (taken other : BlockId) : List (Datum V) → Departure V
  | [a, b] => .to (if f a b then taken else other)
  | _ => .to other

def poolConstant (pool : Pool) (index : UInt16) : Option V := do
  match ← (pool.get index).toOption with
  | .integer v => return M.int v
  | .float v => return M.float v
  | .long v => return M.long v
  | .double v => return M.double v
  | .string text => return M.string (← (pool.utf8 text).toOption)
  | .classRef _ => return M.classOf (Descriptor.ofOperand (← (pool.className index).toOption))
  | other => return M.constant s!"{other.kindName} constant #{index}"

def pushes (wide : Bool) (v : V) : Behaviour V H := .compute 0 wide fun _ w => (.value v, w)

/-- Performs an operation for its result, or for what it does if there is none. -/
def calls (n : Nat) (result : ErasedType) (a : Action) : Behaviour V H :=
  if result = .void then .perform n fun args w => (M.act a args w).2 else .compute n result.isWide (M.act a)

def getField (ctx : MethodContext) (index : UInt16) (n : Nat) : Option (Behaviour V H) := do
  let m ← (ctx.pool.memberRef index).toOption
  let t ← Descriptor.parseType? m.descriptor
  return .compute n t.isWide (M.act (.fieldGet m.className m.name t))

def putField (ctx : MethodContext) (index : UInt16) (n : Nat) : Option (Behaviour V H) := do
  let m ← (ctx.pool.memberRef index).toOption
  let t ← Descriptor.parseType? m.descriptor
  return .perform n fun args w => (M.act (.fieldPut m.className m.name t) args w).2

def invoke (ctx : MethodContext) (kind : InvokeKind) (index : UInt16) : Option (Behaviour V H) := do
  let m ← (ctx.pool.memberRef index).toOption
  let t ← Descriptor.parseMethod? m.descriptor
  if kind = .static then
    return M.calls t.params.length t.result (.call kind m.className m.name m.descriptor)
  else if m.name = "<init>" then return .initObject t.params.length kind m.className m.descriptor
  else return M.calls (t.params.length + 1) t.result (.call kind m.className m.name m.descriptor)

def invokeDynamic (ctx : MethodContext) (index : UInt16) : Option (Behaviour V H) := do
  let site ← (ctx.pool.callSite index).toOption
  let t ← Descriptor.parseMethod? site.descriptor
  return M.calls t.params.length t.result (.dynamic site.name site.descriptor site.bootstrap)

def ofClass (ctx : MethodContext) (index : UInt16) (n : Nat)
    (run : ErasedType → List (Datum V) → World V H → Datum V × World V H) : Option (Behaviour V H) := do
  let name ← (ctx.pool.className index).toOption
  return .compute n false (run (Descriptor.ofOperand name))

def compareTo (bias : Bool) (a b : Datum V) : Datum V :=
  .value (M.int (if M.unordered a b then (if bias then 1 else -1) else M.order a b))

/-- What an instruction does. Subroutines are not covered. -/
def behaviour (ctx : MethodContext) (i : Instruction) : Option (Behaviour V H) :=
  match i.op with
  | .nop => some (.shuffle some)
  | .nullConst => some (pushes false M.null)
  | .intConst v => some (pushes false (M.int v))
  | .longConst v => some (pushes true (M.long (Int64.ofNat v.val)))
  | .floatConst v => some (pushes false (M.float (.ofFin3 v)))
  | .doubleConst v => some (pushes true (M.double (.ofFin2 v)))
  | .loadConst index => (M.poolConstant ctx.pool index).map (pushes false)
  | .loadWideConst index => (M.poolConstant ctx.pool index).map (pushes true)
  | .load kind slot => some (.load kind.isWide slot)
  | .store _ slot => some (.store slot)
  | .increment slot amount => some (.increment slot amount.toInt32)
  | .arrayLoad kind => some (.compute 2 (ErasedType.ofArrayKind kind).isWide (M.act .arrayGet))
  | .arrayStore _ => some (.perform 3 fun args w => (M.act .arrayPut args w).2)
  | .pop => some (.shuffle (OperandStack.pop 1))
  | .pop2 => some (.shuffle (OperandStack.pop 2))
  | .dup => some (.shuffle (OperandStack.dup 1 0))
  | .dupX1 => some (.shuffle (OperandStack.dup 1 1))
  | .dupX2 => some (.shuffle (OperandStack.dup 1 2))
  | .dup2 => some (.shuffle (OperandStack.dup 2 0))
  | .dup2X1 => some (.shuffle (OperandStack.dup 2 1))
  | .dup2X2 => some (.shuffle (OperandStack.dup 2 2))
  | .swap => some (.shuffle OperandStack.swap)
  | .arith kind op => some (.compute 2 kind.isWide (M.binary fun a b => .value (M.arith op a b)))
  | .neg kind => some (.compute 1 kind.isWide (M.unary fun a => .value (M.neg a)))
  | .convert _ target => some (.compute 1 target.isWide (M.unary (M.castTo (.ofValueKind target))))
  | .narrow kind => some (.compute 1 false (M.unary (M.castTo (Sim.narrowType kind))))
  | .longCompare => some (.compute 2 false (M.binary fun a b => .value (M.int (M.order a b))))
  | .floatCompare bias | .doubleCompare bias => some (.compute 2 false (M.binary (M.compareTo bias)))
  | .ifZero op t => some (.depart 1 (decideBy (fun a => M.compare op a (.value (M.int 0))) t i.next))
  | .ifIntCmp op t | .ifRefCmp op t => some (.depart 2 (decideBy₂ (M.compare op) t i.next))
  | .ifNull t => some (.depart 1 (decideBy (fun a => M.compare .eq a (.value M.null)) t i.next))
  | .ifNonNull t => some (.depart 1 (decideBy (fun a => M.compare .ne a (.value M.null)) t i.next))
  | .goto t => some (.depart 0 fun _ => .to t)
  | .jsr _ | .ret _ => none
  | .tableSwitch d low _ ts => some (.depart 1 fun args =>
      .to ((args.head?.map (M.select · d (Operation.tableCases low ts))).getD d))
  | .lookupSwitch d ps => some (.depart 1 fun args => .to ((args.head?.map (M.select · d ps)).getD d))
  | .leave none => some (.depart 0 fun _ => .returned none)
  | .leave (some _) => some (.depart 1 fun args => .returned args.head?)
  | .throw => some (.depart 1 fun args => .thrown (args.head?.getD (.value M.null)))
  | .getStatic index => M.getField ctx index 0
  | .getField index => M.getField ctx index 1
  | .putStatic index => M.putField ctx index 1
  | .putField index => M.putField ctx index 2
  | .invokeVirtual index => M.invoke ctx .virtual index
  | .invokeSpecial index => M.invoke ctx .special index
  | .invokeStatic index => M.invoke ctx .static index
  | .invokeInterface index _ => M.invoke ctx .interface index
  | .invokeDynamic index => M.invokeDynamic ctx index
  | .new index => do
      let name ← (ctx.pool.className index).toOption
      return .compute 0 false fun _ w => (.fresh name i.offset, w)
  | .newArray code => some (.compute 1 false (M.act (.newArray (.array (.ofArrayCode code)))))
  | .newRefArray index => ofClass ctx index 1 fun t => M.act (.newArray (.array t))
  | .newMultiArray index dimensions => ofClass ctx index dimensions.toNat fun t => M.act (.newArray t)
  | .arrayLength => some (.compute 1 false (M.act .arrayLength))
  | .checkCast index => ofClass ctx index 1 fun t => M.unary (M.castTo t)
  | .instanceOf index => ofClass ctx index 1 fun t => M.unary fun a => .value (M.ofBool (M.instanceOf t a))
  | .monitorEnter => some (.perform 1 fun args w => (M.act .monitorEnter args w).2)
  | .monitorExit => some (.perform 1 fun args w => (M.act .monitorExit args w).2)

end Model

/-! ## Execution -/

namespace Datum

variable {V : Type}

def finishedAt (x : Datum V) (alloc : Nat) (d : Datum V) : Datum V :=
  match x with
  | .fresh name a => if a = alloc then d else .fresh name a
  | .value v => .value v

end Datum

namespace Machine

variable {V H : Type}

def take (n : Nat) (m : Machine V H) : Option (List (Datum V) × OperandStack V) :=
  if m.stack.length < n then none
  else some (((m.stack.take n).map (·.2)).reverse, m.stack.drop n)

def apply (M : Model V H) (m : Machine V H) : Behaviour V H → Option (Machine V H × Option (Departure V))
  | .compute n wide run => do
      let (args, rest) ← m.take n
      let (d, w) := run args m.world
      return (⟨(wide, d) :: rest, m.slots, w⟩, none)
  | .perform n run => do
      let (args, rest) ← m.take n
      return (⟨rest, m.slots, run args m.world⟩, none)
  | .depart n left => do
      let (args, rest) ← m.take n
      return (⟨rest, m.slots, m.world⟩, some (left args))
  | .load wide slot => some ({ m with stack := (wide, m.slots slot) :: m.stack }, none)
  | .store slot =>
      match m.stack with
      | [] => none
      | (_, d) :: rest => some (⟨rest, fun n => if n = slot then d else m.slots n, m.world⟩, none)
  | .increment slot amount =>
      let d := .value (M.arith .add (m.slots slot) (.value (M.int amount)))
      some ({ m with slots := fun n => if n = slot then d else m.slots n }, none)
  | .shuffle form => do
      let stack ← form m.stack
      return ({ m with stack }, none)
  | .initObject n kind owner descriptor => do
      let (args, rest) ← m.take n
      match rest with
      | [] => none
      | (_, .fresh name alloc) :: rest =>
          let (d, w) := M.act (.construct name descriptor) args m.world
          return (⟨rest.map fun x => (x.1, x.2.finishedAt alloc d), fun n => (m.slots n).finishedAt alloc d, w⟩,
            none)
      | (_, d) :: rest =>
          return (⟨rest, m.slots, (M.act (.call kind owner "<init>" descriptor) (d :: args) m.world).2⟩, none)

def step (M : Model V H) (ctx : MethodContext) (i : Instruction) (m : Machine V H) :
    Option (Machine V H × Option (Departure V)) :=
  (M.behaviour ctx i).bind (m.apply M)

/-- Executes instructions one by one until one leaves the block, or behind the last one. -/
def run (M : Model V H) (ctx : MethodContext) : List Instruction → Machine V H → Option (Result V H)
  | [], _ => none
  | i :: rest, m => do
      let (m, left) ← m.step M ctx i
      match left, rest with
      | some d, _ => return ⟨m.slots, m.world, some d⟩
      | none, [] => return ⟨m.slots, m.world, some (.to i.next)⟩
      | none, _ => run M ctx rest m

end Machine

end JvmLift
