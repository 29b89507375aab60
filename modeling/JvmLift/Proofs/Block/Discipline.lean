import JvmLift.Block.Simulate

/-!
# The stack discipline

An execution on categories: it knows of every stack entry whether it takes one slot or two, and of an array what its
elements take. The strict discipline also follows how well the simulation, which looks at the types of expressions,
sees that an entry is wide.
-/
namespace JvmLift

/-- How the simulation sees that an entry is wide: by its own type, by the value that was duplicated,
or not at all. -/
inductive Sight where
  | own
  | copied
  | faint
  deriving DecidableEq, Repr

/-- A stack entry of category one, an array among them, or of category two. -/
inductive Entry where
  | one
  | array (element : Entry)
  | two (sight : Sight)
  deriving DecidableEq, Repr

namespace Entry

def ofType : ErasedType → Entry
  | .long | .double => .two .own
  | .array t => .array (ofType t)
  | _ => .one

def isWide : Entry → Bool
  | .two _ => true
  | .one | .array _ => false

def isFaint : Entry → Bool
  | .two .faint => true
  | _ => false

def copy : Entry → Entry
  | .two .own => .two .copied
  | e => e

/-- The entry when only its own type counts, no longer the value that it reads. -/
def dim : Entry → Entry
  | .two .copied => .two .faint
  | e => e

/-- May the first entry arrive where the second one is expected? Reads of duplicates are not told from
each other there. -/
def flowsTo : Entry → Entry → Bool
  | .one, .one | .one, .array _ => true
  | .array e, .array e' => e.flowsTo e'
  | .two .own, .two .own | .two _, .two .faint => true
  | _, _ => false

end Entry

abbrev Checker := StateT (List Entry) Option

namespace Checker

def push (e : Entry) : Checker Unit := fun st => some ((), e :: st)

def pushAll (es : List Entry) : Checker Unit := fun st => some ((), es ++ st)

def pop : Checker Entry
  | [] => none
  | e :: st => some (e, st)

def popN (n : Nat) : Checker Unit := fun st => if st.length < n then none else some ((), st.drop n)

def mapAll (f : Entry → Entry) : Checker Unit := fun st => some ((), st.map f)

def need {α : Type} (x : Option α) : Checker α := fun st => x.map fun a => (a, st)

def ensure (p : Bool) : Checker Unit := fun st => if p then some ((), st) else none

def look (strict : Bool) (e : Entry) : Checker Bool := do
  ensure !(strict && e.isFaint)
  return e.isWide

def popOne (strict : Bool) : Checker Entry := do
  let e ← pop
  let wide ← look strict e
  ensure !wide
  return e

/-! ### Stack instructions -/

section

variable (strict : Bool)

def popSlots : Nat → Checker (List Entry)
  | 0 => return []
  | 1 => return [← popOne strict]
  | slots + 2 => do
      let e ← pop
      let wide ← look strict e
      let es ← (if wide then popSlots slots else popSlots (slots + 1))
      return e :: es

def drop (slots : Nat) : Checker Unit := do
  let _ ← popSlots strict slots

def dup (copied under : Nat) : Checker Unit := do
  let top ← popSlots strict copied
  let middle ← popSlots strict under
  pushAll (top.map Entry.copy ++ (middle ++ top.map Entry.copy))

def swap : Checker Unit := do
  let v1 ← popOne strict
  let v2 ← popOne strict
  pushAll [v2, v1]

end

/-! ### Other instructions -/

def constant (ctx : MethodContext) (index : UInt16) (wide : Bool) : Checker Unit := do
  let e ← need (Sim.constantValue ctx.pool index).toOption
  ensure (e.ty.isWide == wide)
  push (.ofType e.ty)

def loadedType (ctx : MethodContext) (kind : ValueKind) (slot : UInt16) (i : Instruction) : ErasedType :=
  if !ctx.isStatic ∧ slot = 0 ∧ kind = .reference then .unknown
  else (ctx.locals.var slot kind i.offset false).ty

def load (ctx : MethodContext) (kind : ValueKind) (slot : UInt16) (i : Instruction) : Checker Unit := do
  ensure ((loadedType ctx kind slot i).isWide == (ErasedType.ofValueKind kind).isWide)
  push (.ofType (loadedType ctx kind slot i))

def arrayLoad (kind : ArrayKind) : Checker Unit := do
  let _ ← pop
  match ← pop with
  | .one => push (.ofType (.ofArrayKind kind))
  | .array e =>
      ensure (e.isWide == (ErasedType.ofArrayKind kind).isWide)
      push e.dim
  | .two _ => ensure false

def neg (kind : ValueKind) : Checker Unit := do
  let e ← pop
  ensure (e.isWide == (ErasedType.ofValueKind kind).isWide)
  push e.dim

def arith (kind : ValueKind) : Checker Unit := do
  let _ ← pop
  let left ← pop
  ensure (left.isWide == (ErasedType.ofValueKind kind).isWide)
  push (.ofType (.ofValueKind kind))

def getField (ctx : MethodContext) (index : UInt16) (hasObject : Bool) : Checker Unit := do
  let m ← need (ctx.pool.memberRef index).toOption
  let t ← need (Descriptor.parseType? m.descriptor)
  popN hasObject.toNat
  push (.ofType t)

def putField (ctx : MethodContext) (index : UInt16) (hasObject : Bool) : Checker Unit := do
  let m ← need (ctx.pool.memberRef index).toOption
  let _ ← need (Descriptor.parseType? m.descriptor)
  let _ ← pop
  popN hasObject.toNat

def result (t : ErasedType) : Checker Unit := if t = .void then pure () else push (.ofType t)

def invoke (ctx : MethodContext) (kind : InvokeKind) (index : UInt16) : Checker Unit := do
  let m ← need (ctx.pool.memberRef index).toOption
  let t ← need (Descriptor.parseMethod? m.descriptor)
  popN t.params.length
  popN (if kind = .static then 0 else 1)
  ensure (m.name != "<init>" || t.result == .void)
  result t.result

def invokeDynamic (ctx : MethodContext) (index : UInt16) : Checker Unit := do
  let site ← need (ctx.pool.callSite index).toOption
  let t ← need (Descriptor.parseMethod? site.descriptor)
  popN t.params.length
  result t.result

def ofClass (ctx : MethodContext) (index : UInt16) (n : Nat) (build : ErasedType → ErasedType) : Checker Unit := do
  popN n
  let name ← need (ctx.pool.className index).toOption
  push (.ofType (build (Descriptor.ofOperand name)))

def compute (n : Nat) (t : ErasedType) : Checker Unit := do
  popN n
  push (.ofType t)

/-- Performs one instruction. A subroutine comes back with the stack that it was called with. -/
def step (strict : Bool) (ctx : MethodContext) (i : Instruction) : Checker Unit :=
  match i.op with
  | .nop | .goto _ | .jsr _ | .ret _ | .leave none => pure ()
  | .nullConst | .intConst _ | .floatConst _ => push .one
  | .longConst _ | .doubleConst _ => push (.two .own)
  | .loadConst index => constant ctx index false
  | .loadWideConst index => constant ctx index true
  | .load kind slot => load ctx kind slot i
  | .store .. => do
      let _ ← pop
      mapAll Entry.dim
  | .increment .. => mapAll Entry.dim
  | .arrayLoad kind => arrayLoad kind
  | .arrayStore _ => popN 3
  | .pop => drop strict 1
  | .pop2 => drop strict 2
  | .dup => dup strict 1 0
  | .dupX1 => dup strict 1 1
  | .dupX2 => dup strict 1 2
  | .dup2 => dup strict 2 0
  | .dup2X1 => dup strict 2 1
  | .dup2X2 => dup strict 2 2
  | .swap => swap strict
  | .arith kind _ => arith kind
  | .neg kind => neg kind
  | .convert _ target => compute 1 (.ofValueKind target)
  | .narrow kind => compute 1 (Sim.narrowType kind)
  | .longCompare | .floatCompare _ | .doubleCompare _ => compute 2 .int
  | .ifZero .. | .ifNull _ | .ifNonNull _ | .tableSwitch .. | .lookupSwitch .. | .leave (some _)
  | .throw | .monitorEnter | .monitorExit => popN 1
  | .ifIntCmp .. | .ifRefCmp .. => popN 2
  | .getStatic index => getField ctx index false
  | .getField index => getField ctx index true
  | .putStatic index => putField ctx index false
  | .putField index => putField ctx index true
  | .invokeVirtual index => invoke ctx .virtual index
  | .invokeSpecial index => invoke ctx .special index
  | .invokeStatic index => invoke ctx .static index
  | .invokeInterface index _ => invoke ctx .interface index
  | .invokeDynamic index => invokeDynamic ctx index
  | .new index => ofClass ctx index 0 fun _ => .object
  | .newArray code => compute 1 (.array (.ofArrayCode code))
  | .newRefArray index => ofClass ctx index 1 .array
  | .newMultiArray index dimensions => ofClass ctx index dimensions.toNat id
  | .arrayLength => compute 1 .int
  | .checkCast index => ofClass ctx index 1 id
  | .instanceOf index => ofClass ctx index 1 fun _ => .boolean

def run (strict : Bool) (ctx : MethodContext) : List Instruction → List Entry → Option (List Entry)
  | [], st => some st
  | i :: rest, st => (step strict ctx i st).bind fun r => run strict ctx rest r.2

end Checker

def Entry.allFlowTo : List Entry → List Entry → Bool
  | [], [] => true
  | e :: es, e' :: es' => e.flowsTo e' && allFlowTo es es'
  | _, _ => false

/-- Code obeys the discipline with the given stacks at the starts of its blocks. -/
structure ControlFlow.Obeys (cf : ControlFlow) (strict : Bool) (ctx : MethodContext)
    (stackAt : BlockId → List Entry) : Prop where
  entry : stackAt cf.entry = []
  handlers : ∀ e ∈ cf.handlers, stackAt e.handler = [.one]
  subroutines : ∀ b ∈ cf.subroutines, stackAt b = [.one]
  blocks : ∀ b ∈ cf.blocks, b.id ∈ cf.reversePostorder →
    ∃ out ∈ Checker.run strict ctx b.instructions (stackAt b.id),
      ∀ t ∈ b.terminator.targets, t ∈ cf.reversePostorder → Entry.allFlowTo out (stackAt t) = true

instance (cf : ControlFlow) (strict : Bool) (ctx : MethodContext) (stackAt : BlockId → List Entry) :
    Decidable (cf.Obeys strict ctx stackAt) :=
  decidable_of_iff
    (stackAt cf.entry = [] ∧ (∀ e ∈ cf.handlers, stackAt e.handler = [.one]) ∧
      (∀ b ∈ cf.subroutines, stackAt b = [.one]) ∧
      ∀ b ∈ cf.blocks, b.id ∈ cf.reversePostorder →
        ∃ out ∈ Checker.run strict ctx b.instructions (stackAt b.id),
          ∀ t ∈ b.terminator.targets, t ∈ cf.reversePostorder → Entry.allFlowTo out (stackAt t) = true)
    ⟨fun ⟨he, hh, hs, hb⟩ => ⟨he, hh, hs, hb⟩, fun h => ⟨h.entry, h.handlers, h.subroutines, h.blocks⟩⟩

end JvmLift
