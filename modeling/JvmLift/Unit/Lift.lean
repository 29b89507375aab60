import JvmLift.Block.Simulate
import JvmLift.Hierarchy.Query
import JvmLift.Instruction.Listing
import JvmLift.Protection.Analysis
import JvmLift.Structure.Basic
import JvmLift.Sugar.Basic
import JvmLift.Unit.OfClass
import JvmLift.Unit.References

/-!
Reconstruction of classes. Each method goes from its instructions over blocks and structured
statements to source statements. A method that fails keeps its declaration and shows the fault with
a listing of its first instructions.
-/
namespace JvmLift

structure LiftOptions where
  foldConditions : Bool
  recoverFor : Bool
  recoverForEach : Bool
  recoverEnumSwitch : Bool
  recoverStringSwitch : Bool
  /-- Number of instructions listed for a method that fails. -/
  listingLimit : Nat
  includeSynthetic : Bool
  deriving DecidableEq, Repr

namespace LiftOptions

def standard : LiftOptions where
  foldConditions := true
  recoverFor := true
  recoverForEach := true
  recoverEnumSwitch := true
  recoverStringSwitch := true
  listingLimit := 20
  includeSynthetic := false

def sugar (o : LiftOptions) : SugarOptions where
  ternary := o.foldConditions
  forLoops := o.recoverFor
  forEach := o.recoverForEach
  enumSwitch := o.recoverEnumSwitch
  stringSwitch := o.recoverStringSwitch

end LiftOptions

structure MethodCode where
  code : Code
  type : MethodType
  isStatic : Bool
  instructions : List Instruction
  handlers : List HandlerEdge
  protection : Protection
  flow : ControlFlow
  deriving Repr, Inhabited

namespace MethodCode

def parseDescriptor (descriptor : String) : Except LiftFault MethodType :=
  match Descriptor.parseMethod? descriptor with
  | some t => .ok t
  | none => .error (.badDescriptor 0 descriptor)

def ofMember (pool : Pool) (m : Member) (descriptor : String) : Except LiftFault MethodCode := do
  match m.code? pool with
  | none => .error .noCode
  | some code =>
      let type ← parseDescriptor descriptor
      let instructions ← (Instruction.decodeAll code.code).mapError .decode
      let handlers ← code.handlerEdges pool
      let protection := Protection.analyze instructions handlers
      let flow := ControlFlow.build instructions handlers protection.extraLeaders
      return ⟨code, type, m.flags.isStatic, instructions, handlers, protection, flow⟩

def locals (c : MethodCode) (pool : Pool) (parameters : List ParameterDecl) : Locals :=
  let slots := MethodType.assignSlots (MethodType.firstSlot c.isStatic) c.type.params
  (parameters.zip slots).foldl (fun ls (p, slot, t) => ls.withParameter slot p.name t)
    (.ofCode pool c.code)

def context (c : MethodCode) (pool : Pool) (r : Resolver) (parameters : List ParameterDecl) : MethodContext where
  pool := pool
  lines := .ofCode pool c.code
  resolver := r
  locals := c.locals pool parameters
  isStatic := c.isStatic
  returnType := c.type.result

def sugarContext (c : MethodCode) (r : Resolver) : SugarContext where
  resolver := r
  returnType := c.type.result
  paramSlots := MethodType.parameterSlots c.type.params c.isStatic

def simulated (c : MethodCode) (pool : Pool) (r : Resolver) (parameters : List ParameterDecl) :
    Except LiftFailure (List Block × List String) :=
  simulate (c.context pool r parameters) c.flow

def structured (c : MethodCode) (o : LiftOptions) (blocks : List Block) : Option MethodBody :=
  structureMethod? c.flow blocks c.protection o.foldConditions

def sugared (c : MethodCode) (o : LiftOptions) (r : Resolver) (body : MethodBody) : Option (MethodBody × List String) :=
  sugar? (c.sugarContext r) o.sugar body

end MethodCode

namespace Lift

structure Outcome where
  result : Except LiftFault MethodBody
  asked : List String

/-- What becomes of a method with code, unless a stage breaks off. -/
def methodBody (o : LiftOptions) (pool : Pool) (r : Resolver) (m : Member) (decl : MethodDecl) : Option Outcome :=
  match MethodCode.ofMember pool m decl.descriptor with
  | .error fault => some ⟨.error fault, []⟩
  | .ok c =>
      if c.flow.blocks.isEmpty then some ⟨.ok ⟨[], false, []⟩, []⟩
      else
        match c.simulated pool r decl.parameters with
        | .error failure => some ⟨.error failure.fault, failure.asked⟩
        | .ok (blocks, asked) => do
            let (body, more) ← c.sugared o r (← c.structured o blocks)
            return ⟨.ok body, asked ++ more⟩

/-- Lists at most `limit` instructions from an offset on, in at most `n` steps; stops at code that
cannot be decoded. -/
def listingFrom (code : Bytes) : Nat → Nat → Nat → String
  | 0, _, _ => ""
  | n + 1, limit, offset =>
      if code.length ≤ offset then ""
      else
        match limit with
        | 0 => s!"\n  ... ({code.length - offset} more bytes)"
        | limit + 1 =>
            match Instruction.decode code offset with
            | .ok i =>
                s!"\n  {Text.offset4 i.offset}: {i.op.text}" ++ listingFrom code n limit i.next
            | .error fault => s!"\n  {Text.offset4 offset}: <{fault.message}>"

def failureText (o : LiftOptions) (pool : Pool) (m : Member) (decl : MethodDecl) (fault : LiftFault) : String :=
  s!"decompilation failed for {decl.name}{decl.descriptor}: {fault.message}\nbytecode:" ++
    match m.code? pool with
    | some c => listingFrom c.code (c.code.length + 1) o.listingLimit 0
    | none => "\n  <Code attribute unreadable>"

/-- A method with its body or its error, the warnings about it, and the names that were looked up. -/
structure LiftedMethod where
  decl : MethodDecl
  warnings : List String
  asked : List String

def finished (o : LiftOptions) (pool : Pool) (m : Member) (decl : MethodDecl) : Outcome → LiftedMethod
  | ⟨.ok body, asked⟩ =>
      ⟨{ decl with body := some body },
        body.warnings.map fun w => s!"{decl.name}{decl.descriptor}: {w}", asked⟩
  | ⟨.error fault, asked⟩ =>
      ⟨{ decl with error := some (failureText o pool m decl fault) }, [], asked⟩

def method (o : LiftOptions) (pool : Pool) (r : Resolver) (m : Member) (decl : MethodDecl) : Option LiftedMethod :=
  if m.flags.isAbstract || m.flags.isNative then some ⟨decl, [], []⟩
  else
    match m.code? pool, m.codeFault? pool with
    | some _, _ => (methodBody o pool r m decl).map (finished o pool m decl)
    | none, some fault => some (finished o pool m decl ⟨.error (.format fault), []⟩)
    | none, none => some ⟨decl, [], []⟩

/-- The methods of a class one after the other. What one of them has looked up is there for the next. -/
def methods (o : LiftOptions) (pool : Pool) (r : Resolver) :
    Session → List (Member × MethodDecl) → Option (List LiftedMethod × Session)
  | s, [] => some ([], s)
  | s, (m, decl) :: rest => do
      let lifted ← method o pool (s.resolver r) m decl
      let (others, s) ← methods o pool r (s.lookUp lifted.asked) rest
      return (lifted :: others, s)

end Lift

/-- Reconstructs a class. A fault in its declarations ends the reconstruction. Nothing is given where a method
breaks off. -/
def liftClass (o : LiftOptions) (path : ClassPath) (c : ClassFile) : Option (Except LiftFault CompilationUnit) :=
  match ClassDecl.ofClass c with
  | .error fault => some (.error (.format fault))
  | .ok (decl, warnings) => do
      let (lifted, s) ← Lift.methods o c.pool (.ofPath path (some c)) (.ofPath path (some c)) (c.methods.zip decl.methods)
      return .ok (.ofDecl { decl with methods := lifted.map (·.decl) }
        (warnings ++ lifted.flatMap (·.warnings) ++ s.gaps.map fun gap => s!"unresolved class {gap}"))

def liftBytes (o : LiftOptions) (path : ClassPath) (bytes : Bytes) : Option (Except LiftFault CompilationUnit) :=
  match ClassFile.parse bytes with
  | .error fault => some (.error (.format fault))
  | .ok c => liftClass o path c

def liftNamed (o : LiftOptions) (path : ClassPath) (name : String) : Option (Except LiftFault CompilationUnit) :=
  match path.bytes? name with
  | some bytes => liftBytes o path bytes
  | none => some (.error (.classNotFound name))

def liftAll (o : LiftOptions) (path : ClassPath) (classes : List Bytes) :
    Option (List (Except LiftFault CompilationUnit)) :=
  classes.mapM (liftBytes o path)

end JvmLift
