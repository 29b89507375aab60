import JvmLift.Block.Duplicates
import JvmLift.Block.Locals
import JvmLift.Expr.Condition
import JvmLift.Hierarchy.Resolver

/-!
One instruction on a symbolic operand stack. Instructions that compute push expressions, and those
with an effect emit statements.
-/
namespace JvmLift

structure MethodContext where
  pool : Pool
  lines : LineTable
  resolver : Resolver
  locals : Locals
  isStatic : Bool
  returnType : ErasedType
  deriving Repr

/-- The state inside a block. The stack has its top first, and `start` is where the next statement
starts. -/
structure Frame where
  duplicates : Duplicates
  nextTemp : UInt16
  stack : List Expr
  out : List Located
  start : Nat
  deriving Repr

abbrev Sim := StateT Frame (Except LiftFault)

namespace Frame

def isWide (f : Frame) : Expr → Bool
  | .dupLoad id => ((f.duplicates.get? id).map (·.ty.isWide)).getD false
  | e => e.ty.isWide

def readsVar (f : Frame) (v : LocalVar) : Expr → Bool
  | .dupLoad id => ((f.duplicates.get? id).map (·.reads v)).getD false
  | e => e.reads v

end Frame

namespace Sim

def ofFormat {α : Type} (x : Except FormatFault α) : Sim α := liftM (x.mapError LiftFault.format)

def push (e : Expr) : Sim Unit := modify fun f => { f with stack := e :: f.stack }

/-- Pushes values that are given with the top first. -/
def pushAll (es : List Expr) : Sim Unit := modify fun f => { f with stack := es ++ f.stack }

def pop (i : Instruction) : Sim Expr := do
  let f ← get
  match f.stack with
  | [] => throw (.stackUnderflow i.offset)
  | e :: rest =>
      set { f with stack := rest }
      return e

/-- Pops `n` values, given in the order they were pushed. -/
def popN (n : Nat) (i : Instruction) : Sim (List Expr) := do
  let f ← get
  if f.stack.length < n then throw (.stackUnderflow i.offset)
  set { f with stack := f.stack.drop n }
  return (f.stack.take n).reverse

def popSingle (i : Instruction) (operation : String) : Sim Expr := do
  let e ← pop i
  let f ← get
  if f.isWide e then throw (.categoryMismatch i.offset operation)
  return e

/-- Emits the statement that an instruction completes; the next one starts behind it. -/
def emit (ctx : MethodContext) (s : Stmt) (i : Instruction) : Sim Unit :=
  modify fun f =>
    { f with
      out := f.out ++ [⟨s, f.start, i.next, ctx.lines.line? f.start⟩]
      start := i.next }

/-- What both copies of a value are: the value itself if it can be evaluated twice, else a read of a
duplicate. -/
def duplicate (ctx : MethodContext) (value : Expr) (i : Instruction) : Sim Expr := do
  let isShared : Bool :=
    match value with
    | .dupLoad _ | .uninitNew .. => true
    | e => e.isPure
  if isShared then return value
  let f ← get
  let id := f.duplicates.values.length
  set ({ f with
    duplicates := ⟨f.duplicates.values ++ [value]⟩
    out := f.out ++ [⟨.dupStore id, f.start, i.next, ctx.lines.line? f.start⟩] } : Frame)
  return .dupLoad id

def spillEntry (ctx : MethodContext) (v : LocalVar) (e : Expr) : Sim Expr := do
  let f ← get
  if f.readsVar v e then
    let temp := LocalVar.ofTemp f.nextTemp e.ty
    set ({ f with
      nextTemp := f.nextTemp + 1
      out := f.out ++ [⟨.store temp e, f.start, f.start, ctx.lines.line? f.start⟩] } : Frame)
    return .localVar temp
  else return e

/-- Saves the stack entries that read `v` before `v` changes, from the bottom up. -/
def spillReaders (ctx : MethodContext) (v : LocalVar) : Sim Unit := do
  let f ← get
  let stack ← f.stack.reverse.mapM (spillEntry ctx v)
  modify fun f => { f with stack := stack.reverse }

def discard (ctx : MethodContext) (e : Expr) (i : Instruction) : Sim Unit :=
  if e.hasSideEffects then emit ctx (.expr e) i else pure ()

def finishCall (ctx : MethodContext) (call : Expr) (result : ErasedType) (i : Instruction) : Sim Unit :=
  if result = .void then emit ctx (.expr call) i else push call

def fieldType (descriptor : String) (i : Instruction) : Sim ErasedType :=
  match Descriptor.parseType? descriptor with
  | some t => pure t
  | none => throw (.badDescriptor i.offset descriptor)

def methodType (descriptor : String) (i : Instruction) : Sim MethodType :=
  match Descriptor.parseMethod? descriptor with
  | some t => pure t
  | none => throw (.badDescriptor i.offset descriptor)

/-- Pops the arguments of a call, literals in the types of the parameters. -/
def popArgs (params : List ErasedType) (i : Instruction) : Sim (List Expr) := do
  let args ← popN params.length i
  return List.zipWith Expr.retype args params

/-! ### Stack instructions -/

/-- Pops the entries in the topmost slots, the top first. -/
def popSlots (i : Instruction) (operation : String) : Nat → Sim (List Expr)
  | 0 => return []
  | 1 => return [← popSingle i operation]
  | slots + 2 => do
      let e ← pop i
      let f ← get
      let es ← (if f.isWide e then popSlots i operation slots else popSlots i operation (slots + 1))
      return e :: es

def drop (ctx : MethodContext) (operation : String) (slots : Nat) (i : Instruction) : Sim Unit := do
  (← popSlots i operation slots).forM (discard ctx · i)

/-- Copies of values that are given with the top first, made from the bottom up. -/
def duplicateAll (ctx : MethodContext) (i : Instruction) (values : List Expr) : Sim (List Expr) :=
  values.foldrM (fun e copies => return (← duplicate ctx e i) :: copies) []

/-- Duplicates the entries in the topmost slots and puts the copies below the slots that follow. -/
def dup (ctx : MethodContext) (operation : String) (copied under : Nat) (i : Instruction) : Sim Unit := do
  let top ← popSlots i operation copied
  let middle ← popSlots i operation under
  let copies ← duplicateAll ctx i top
  pushAll (copies ++ (middle ++ copies))

def swap (i : Instruction) : Sim Unit := do
  let v₁ ← popSingle i "swap"
  let v₂ ← popSingle i "swap"
  pushAll [v₂, v₁]

/-! ### Locals, constants, arrays and fields -/

/-- The value of a constant; kinds that are no values are kept as a text. -/
def constantValue (pool : Pool) (index : UInt16) : Except FormatFault Expr := do
  match ← pool.get index with
  | .integer v => return .intLit v
  | .float v => return .floatLit v
  | .long v => return .longLit v
  | .double v => return .doubleLit v
  | .string textIndex => return .stringLit (← pool.utf8 textIndex)
  | .classRef _ => return .classLit (Descriptor.ofOperand (← pool.className index))
  | other => return .unresolved s!"{other.kindName} constant #{index}"

/-- Slot zero of an instance method holds the receiver. -/
def load (ctx : MethodContext) (kind : ValueKind) (slot : UInt16) (i : Instruction) : Sim Unit :=
  if !ctx.isStatic ∧ slot = 0 ∧ kind = .reference then push .thisRef
  else push (.localVar (ctx.locals.var slot kind i.offset false))

/-- Stores into a local; the return address of a subroutine leaves no statement. -/
def store (ctx : MethodContext) (kind : ValueKind) (slot : UInt16) (i : Instruction) : Sim Unit := do
  match ← pop i with
  | .returnAddress => modify fun f => { f with start := i.next }
  | value =>
      let v := ctx.locals.var slot kind i.offset true
      spillReaders ctx v
      emit ctx (.store v (value.retype v.ty)) i

def increment (ctx : MethodContext) (slot : UInt16) (amount : Int16) (i : Instruction) : Sim Unit := do
  let v := ctx.locals.var slot .int i.offset false
  spillReaders ctx v
  emit ctx (.increment v amount.toInt32) i

/-- Element type of an access, from the type of the array when that is known. -/
def elementType (array : Expr) (kind : ArrayKind) : ErasedType :=
  match array.ty with
  | .array t => t
  | _ => .ofArrayKind kind

def arrayLoad (kind : ArrayKind) (i : Instruction) : Sim Unit := do
  let index ← pop i
  let array ← pop i
  push (.arrayLoad array index (elementType array kind))

def arrayStore (ctx : MethodContext) (kind : ArrayKind) (i : Instruction) : Sim Unit := do
  let value ← pop i
  let index ← pop i
  let array ← pop i
  emit ctx (.arrayStore array index (value.retype (elementType array kind))) i

def getField (ctx : MethodContext) (index : UInt16) (hasObject : Bool) (i : Instruction) : Sim Unit := do
  let m ← ofFormat (ctx.pool.memberRef index)
  let t ← fieldType m.descriptor i
  let object ← if hasObject then some <$> pop i else pure none
  push (.fieldGet m.className m.name t object)

def putField (ctx : MethodContext) (index : UInt16) (hasObject : Bool) (i : Instruction) : Sim Unit := do
  let m ← ofFormat (ctx.pool.memberRef index)
  let t ← fieldType m.descriptor i
  let value ← pop i
  let object ← if hasObject then some <$> pop i else pure none
  emit ctx (.fieldStore m.className m.name t object (value.retype t)) i

/-! ### Computation -/

/-- Bitwise operations on two booleans are boolean. -/
def arithType (kind : ValueKind) (op : ArithOp) (left right : Expr) : ErasedType :=
  match op with
  | .and | .or | .xor => if left.isBoolean && right.isBoolean then .boolean else .ofValueKind kind
  | _ => .ofValueKind kind

def binary (i : Instruction) (build : Expr → Expr → Expr) : Sim Unit := do
  let right ← pop i
  let left ← pop i
  push (build left right)

def unary (i : Instruction) (build : Expr → Expr) : Sim Unit := do
  let e ← pop i
  push (build e)

def narrowType : NarrowKind → ErasedType
  | .byte => .byte
  | .char => .char
  | .short => .short

/-- The condition of two integers; a literal takes the type of the other side. -/
def intCondition (op : CmpOp) (left right : Expr) : Expr :=
  let right := right.retype left.ty
  .compare op (left.retype right.ty) right

def branch (i : Instruction) (test : Expr) (target : BlockId) : Option Exit :=
  some (.cond test target i.next)

/-! ### Calls -/

structure Call where
  member : MemberRef
  type : MethodType
  args : List Expr

def takeCall (ctx : MethodContext) (index : UInt16) (i : Instruction) : Sim Call := do
  let m ← ofFormat (ctx.pool.memberRef index)
  let t ← methodType m.descriptor i
  let args ← popArgs t.params i
  return ⟨m, t, args⟩

def Call.hasReferences (c : Call) : Bool :=
  c.args.any fun a =>
    match a.ty with
    | .reference _ | .null => true
    | _ => false

def Call.isOverloaded (ctx : MethodContext) (c : Call) : Bool :=
  1 < ctx.resolver.overloads c.member.className c.member.name c.type.params.length

/-- An argument as the overload needs it: `null`, and a reference that is not assignable, is cast. -/
def overloadArg (r : Resolver) (arg : Expr) (param : ErasedType) : Expr :=
  match arg.ty, param with
  | .null, t => .cast t arg
  | .reference source, .reference target =>
      if r.isAssignable source target then arg else .cast param arg
  | _, _ => arg

def Call.castArgs (ctx : MethodContext) (c : Call) : List Expr :=
  if c.hasReferences && c.isOverloaded ctx then
    List.zipWith (overloadArg ctx.resolver) c.args c.type.params
  else c.args

def argLookups (r : Resolver) (arg : Expr) (param : ErasedType) : List String :=
  match arg.ty, param with
  | .reference source, .reference target => r.lookups (.isAssignable r.size source target)
  | _, _ => []

def Call.lookups (ctx : MethodContext) (c : Call) : List String :=
  if c.hasReferences then
    ctx.resolver.lookups (.overloads ctx.resolver.size c.member.className c.member.name c.type.params.length) ++
      (if c.isOverloaded ctx then
        (List.zipWith (argLookups ctx.resolver) c.args c.type.params).flatten
      else [])
  else []

def isAlloc (alloc : Nat) : Expr → Bool
  | .uninitNew _ a => a == alloc
  | _ => false

/-- Runs the constructor of the object allocated at an offset, and puts the finished object wherever
that is on the stack. -/
def construct (ctx : MethodContext) (created : Expr) (alloc : Nat) (i : Instruction) : Sim Unit := do
  let f ← get
  if f.stack.any (isAlloc alloc) then
    set { f with stack := f.stack.map fun e => if isAlloc alloc e then created else e }
  else emit ctx (.expr created) i

def invoke (ctx : MethodContext) (kind : InvokeKind) (index : UInt16) (i : Instruction) : Sim Unit := do
  let c ← takeCall ctx index i
  let args := c.castArgs ctx
  let receiver ← if kind = .static then pure none else some <$> pop i
  let m := c.member
  let call := Expr.call kind m.className m.name m.descriptor receiver args
  if m.name = "<init>" then
    match receiver with
    | some (.uninitNew className alloc) =>
        construct ctx (.new className m.descriptor args) alloc i
    | _ => finishCall ctx call c.type.result i
  else finishCall ctx call c.type.result i

def invokeDynamic (ctx : MethodContext) (index : UInt16) (i : Instruction) : Sim Unit := do
  let site ← ofFormat (ctx.pool.callSite index)
  let t ← methodType site.descriptor i
  let args ← popArgs t.params i
  finishCall ctx (.dynamic site.name site.descriptor site.bootstrap args) t.result i

def operandType (ctx : MethodContext) (index : UInt16) : Sim ErasedType :=
  Descriptor.ofOperand <$> ofFormat (ctx.pool.className index)

def stay (s : Sim Unit) : Sim (Option Exit) := do
  s
  return none

/-- Performs one instruction. An instruction that decides where to go gives the exit. -/
def step (ctx : MethodContext) (i : Instruction) : Sim (Option Exit) :=
  match i.op with
  | .nop => return none
  | .nullConst => stay (push .nullLit)
  | .intConst v => stay (push (.intLit v))
  | .longConst v => stay (push (.longLit (Int64.ofNat v.val)))
  | .floatConst v => stay (push (.floatLit (.ofFin3 v)))
  | .doubleConst v => stay (push (.doubleLit (.ofFin2 v)))
  | .loadConst index | .loadWideConst index => stay do
    push (← ofFormat (constantValue ctx.pool index))
  | .load kind slot => stay (load ctx kind slot i)
  | .store kind slot => stay (store ctx kind slot i)
  | .increment slot amount => stay (increment ctx slot amount i)
  | .arrayLoad kind => stay (arrayLoad kind i)
  | .arrayStore kind => stay (arrayStore ctx kind i)
  | .pop => stay (drop ctx "pop" 1 i)
  | .pop2 => stay (drop ctx "pop2" 2 i)
  | .dup => stay (dup ctx "dup" 1 0 i)
  | .dupX1 => stay (dup ctx "dup_x1" 1 1 i)
  | .dupX2 => stay (dup ctx "dup_x2" 1 2 i)
  | .dup2 => stay (dup ctx "dup2" 2 0 i)
  | .dup2X1 => stay (dup ctx "dup2_x1" 2 1 i)
  | .dup2X2 => stay (dup ctx "dup2_x2" 2 2 i)
  | .swap => stay (swap i)
  | .arith kind op => stay (binary i fun l r => .binary op (arithType kind op l r) l r)
  | .neg _ => stay (unary i .neg)
  | .convert _ target => stay (unary i (.cast (.ofValueKind target)))
  | .narrow kind => stay (unary i (.cast (narrowType kind)))
  | .longCompare | .floatCompare _ | .doubleCompare _ => stay (binary i .cmpResult)
  | .ifZero op target => do
      let v ← pop i
      return branch i (.zeroTest op v) target
  | .ifIntCmp op target => do
      let right ← pop i
      let left ← pop i
      return branch i (intCondition op left right) target
  | .ifRefCmp op target => do
      let right ← pop i
      let left ← pop i
      return branch i (.compare op left right) target
  | .ifNull target => do
      let v ← pop i
      return branch i (.compare .eq v .nullLit) target
  | .ifNonNull target => do
      let v ← pop i
      return branch i (.compare .ne v .nullLit) target
  | .goto target => return some (.goto target)
  | .jsr _ => return some (.fall i.next)
  | .ret _ => return some .ret
  | .tableSwitch default low _ targets => do
      let key ← pop i
      return some (.switch key default (Operation.tableCases low targets))
  | .lookupSwitch default pairs => do
      let key ← pop i
      return some (.switch key default pairs)
  | .leave none => do
      emit ctx (.leave none) i
      return some .leave
  | .leave (some _) => do
      let v ← pop i
      emit ctx (.leave (some (v.retype ctx.returnType))) i
      return some .leave
  | .getStatic index => stay (getField ctx index false i)
  | .getField index => stay (getField ctx index true i)
  | .putStatic index => stay (putField ctx index false i)
  | .putField index => stay (putField ctx index true i)
  | .invokeVirtual index => stay (invoke ctx .virtual index i)
  | .invokeSpecial index => stay (invoke ctx .special index i)
  | .invokeStatic index => stay (invoke ctx .static index i)
  | .invokeInterface index _ => stay (invoke ctx .interface index i)
  | .invokeDynamic index => stay (invokeDynamic ctx index i)
  | .new index => stay do
    push (.uninitNew (← ofFormat (ctx.pool.className index)) i.offset)
  | .newArray code => stay (unary i fun n => .newArray (.array (.ofArrayCode code)) [n])
  | .newRefArray index => stay do
    let n ← pop i
    push (.newArray (.array (← operandType ctx index)) [n])
  | .newMultiArray index dimensions => stay do
    let dims ← popN dimensions.toNat i
    push (.newArray (← operandType ctx index) dims)
  | .arrayLength => stay (unary i .arrayLength)
  | .throw => do
      let e ← pop i
      emit ctx (.throw e) i
      return some .throw
  | .checkCast index => stay do
    let e ← pop i
    push (.cast (← operandType ctx index) e)
  | .instanceOf index => stay do
    let e ← pop i
    push (.instanceOf e (← operandType ctx index))
  | .monitorEnter => stay do emit ctx (.monitorEnter (← pop i)) i
  | .monitorExit => stay do emit ctx (.monitorExit (← pop i)) i

def calledIndex? : Operation Nat → Option UInt16
  | .invokeVirtual index | .invokeSpecial index | .invokeStatic index | .invokeInterface index _ =>
      some index
  | _ => none

/-- Names that a step looks up, also one that fails after the lookup. -/
def lookups (ctx : MethodContext) (i : Instruction) (f : Frame) : List String :=
  match calledIndex? i.op with
  | none => []
  | some index =>
      match (takeCall ctx index i).run f with
      | .ok (call, _) => call.lookups ctx
      | .error _ => []

end Sim

end JvmLift
