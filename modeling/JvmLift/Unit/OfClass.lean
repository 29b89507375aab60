import JvmLift.ClassFile.Basic
import JvmLift.Expr.Condition
import JvmLift.Type.Signature
import JvmLift.Unit.Declaration

/-!
The declarations of a class file: kind, modifiers, generic types, parameter names, annotations and
constant initializers. Method bodies are left open.
-/
namespace JvmLift

/-! ### Annotations -/

namespace AnnotationUse

/-- The class that a descriptor names; any other text is kept as it is. -/
def descriptorClass (descriptor : String) : String :=
  match Descriptor.parseType? descriptor with
  | some (.reference name) => name
  | _ => descriptor

def charOf? (v : Int32) : Option Char :=
  let n := v.toUInt32
  if h : n.isValidChar then some ⟨n, h⟩ else none

def constValue? (pool : Pool) (tag : Char) (index : UInt16) : Option AnnotationValue :=
  match tag, (pool.get index).toOption with
  | 'Z', some (.integer v) => some (.bool (v != 0))
  | 'C', some (.integer v) => (charOf? v).map .char
  | 'B', some (.integer v) | 'I', some (.integer v) | 'S', some (.integer v) => some (.int v)
  | 'J', some (.long v) => some (.long v)
  | 'F', some (.float v) => some (.float v)
  | 'D', some (.double v) => some (.double v)
  | 's', some (.utf8 bytes) => some (.string (ModifiedUtf8.decode bytes))
  | _, _ => none

mutual

/-- The value of an element. Values that the pool does not give are left out. -/
def value? (pool : Pool) : ElementValue → Option AnnotationValue
  | .const tag index => constValue? pool tag index
  | .enumConst typeIndex nameIndex => do
      let typeName ← pool.utf8? typeIndex
      let constant ← pool.utf8? nameIndex
      return .enumConst (descriptorClass typeName) constant
  | .classInfo index => (pool.utf8? index).map fun d => .classLit (descriptorClass d)
  | .nested typeIndex elements =>
      match pool.utf8? typeIndex with
      | some d => some (.nested (descriptorClass d) (argsOf pool elements))
      | none => none
  | .array vs => some (.array (valuesOf pool vs))

def argsOf (pool : Pool) : List (UInt16 × ElementValue) → List (String × AnnotationValue)
  | [] => []
  | (nameIndex, v) :: rest =>
      match pool.utf8? nameIndex, value? pool v with
      | some name, some value => (name, value) :: argsOf pool rest
      | _, _ => argsOf pool rest

def valuesOf (pool : Pool) : List ElementValue → List AnnotationValue
  | [] => []
  | v :: rest =>
      match value? pool v with
      | some value => value :: valuesOf pool rest
      | none => valuesOf pool rest

end

def ofRaw? (pool : Pool) (a : Annotation) : Option AnnotationUse :=
  (pool.utf8? a.typeIndex).map fun d => ⟨descriptorClass d, argsOf pool a.elements⟩

def deprecatedName : String := "java/lang/Deprecated"

def ofBody (pool : Pool) : AttributeBody → List AnnotationUse
  | .visibleAnnotations as | .invisibleAnnotations as => as.filterMap (ofRaw? pool)
  | _ => []

def isDeprecated : AttributeBody → Bool
  | .deprecated => true
  | _ => false

/-- All annotations; the attribute that marks a deprecated element counts as one. -/
def collect (pool : Pool) (attributes : List Attribute) : List AnnotationUse :=
  let bodies := attributes.filterMap (·.body? pool)
  let found := bodies.flatMap (ofBody pool)
  if bodies.any isDeprecated && !found.any (·.typeName == deprecatedName) then
    found ++ [⟨deprecatedName, []⟩]
  else found

end AnnotationUse

/-! ### Modifiers -/

def Visibility.ofMember (f : Flags) : Visibility :=
  if f.isPublic then .isPublic
  else if f.isProtected then .isProtected
  else if f.isPrivate then .isPrivate
  else .packagePrivate

def Visibility.ofClass (f : Flags) : Visibility :=
  if f.isPublic then .isPublic else .packagePrivate

def ClassKind.ofClass (f : Flags) (internalName : String) : ClassKind :=
  if f.isModule then .module
  else if InternalName.simple internalName = "package-info" then .packageInfo
  else if f.isAnnotationType then .annotationType
  else if f.isEnum then .enum
  else if f.isInterface then .interface
  else .ordinary

def ClassFile.memberFlags? (c : ClassFile) (internalName : String) : Option Flags :=
  Attribute.find? c.pool
    (fun
      | .innerClasses rows =>
          (rows.find? fun r => (c.pool.className r.innerIndex).toOption == some internalName).map
            (·.flags)
      | _ => none)
    c.attributes

/-! ### Members -/

namespace Declare

/-- Building declarations: faults end it, warnings are collected. -/
abbrev Build := StateT (List String) (Except FormatFault)

def warn (text : String) : Build Unit := modify (· ++ [text])

def orWarn {α : Type} (parsed : Option α) (warning : String) : Build (Option α) := do
  if parsed.isNone then warn warning
  return parsed

/-- The initial value that a constant gives; kinds that are no values give none. -/
def constantValue (pool : Pool) (index : UInt16) : Except FormatFault (Option Expr) := do
  match ← pool.get index with
  | .integer v => return some (.intLit v)
  | .long v => return some (.longLit v)
  | .float v => return some (.floatLit v)
  | .double v => return some (.doubleLit v)
  | .string textIndex => return some (.stringLit (← pool.utf8 textIndex))
  | _ => return none

def field (pool : Pool) (m : Member) : Build FieldDecl := do
  let name ← pool.utf8 m.nameIndex
  let descriptor ← pool.utf8 m.descriptorIndex
  let erased := (Descriptor.parseType? descriptor).getD .unknown
  let generic ←
    match m.signatureIndex? pool with
    | some index =>
        let text ← pool.utf8 index
        orWarn (Signature.parseField? text)
          s!"malformed signature {Text.quoted text} on field {name}"
    | none => pure none
  let constant ←
    match m.constantValueIndex? pool with
    | some index => (constantValue pool index : Except FormatFault (Option Expr))
    | none => pure none
  let f := m.flags
  return {
    visibility := .ofMember f
    isStatic := f.isStatic
    isFinal := f.isFinal
    isVolatile := f.isVolatile
    isTransient := f.isTransient
    isSynthetic := f.isSynthetic
    isEnumConstant := f.isEnum
    annotations := AnnotationUse.collect pool m.attributes
    type := generic.getD (.ofErased erased)
    name := name
    initializer := constant.map (·.retype erased) }

def defaultName (i : Nat) : String := s!"param{i}"

/-- The rows that name exactly as many parameters as there are. -/
def parameterRows? (pool : Pool) (m : Member) (count : Nat) : Option (List ParameterRow) :=
  Attribute.find? pool
    (fun
      | .methodParameters rows => if rows.length = count then some rows else none
      | _ => none)
    m.attributes

def rowNames (pool : Pool) : Nat → List ParameterRow → Except FormatFault (List (String × Bool))
  | _, [] => .ok []
  | i, row :: rest => do
      let name ← if row.nameIndex = 0 then pure (defaultName i) else pool.utf8 row.nameIndex
      let names ← rowNames pool (i + 1) rest
      return (name, row.flags &&& 0x0010 != 0) :: names

def slotNames (pool : Pool) (locals : List LocalRow) :
    Nat → List (UInt16 × ErasedType) → Except FormatFault (List (String × Bool))
  | _, [] => .ok []
  | i, (slot, _) :: rest => do
      let name ←
        match locals.find? fun row => row.slot == slot && row.startPc == 0 with
        | some row => pool.utf8 row.nameIndex
        | none => pure (defaultName i)
      let names ← slotNames pool locals (i + 1) rest
      return (name, false) :: names

/-- Parameter names: declared ones, else those of the slots, else numbered ones. -/
def parameterNames (pool : Pool) (m : Member) (params : List ErasedType) : Except FormatFault (List (String × Bool)) :=
  match parameterRows? pool m params.length with
  | some rows => rowNames pool 0 rows
  | none =>
      let locals := ((m.code? pool).bind (·.localRows? pool)).getD []
      slotNames pool locals 0 (MethodType.assignSlots (MethodType.firstSlot m.flags.isStatic) params)

def parameters (isVarargs : Bool) (types : List SourceType) (names : List (String × Bool)) : List ParameterDecl :=
  (types.zip names).zipIdx.map fun ((type, name, isFinal), i) =>
    ⟨type, name, isFinal, i + 1 == types.length && isVarargs⟩

/-- The generic type of a method, or its erased type. A signature that leaves parameters out keeps
the erased ones. -/
def genericType (erased : MethodType) : Option MethodSignature → MethodSignature
  | some s =>
      if s.params.length = erased.params.length then s
      else { s with params := erased.params.map .ofErased }
  | none => ⟨[], erased.params.map .ofErased, .ofErased erased.result, []⟩

def method (pool : Pool) (kind : ClassKind) (m : Member) : Build MethodDecl := do
  let name ← pool.utf8 m.nameIndex
  let descriptor ← pool.utf8 m.descriptorIndex
  let erased ← orWarn (Descriptor.parseMethod? descriptor)
    s!"malformed descriptor {Text.quoted descriptor} on method {name}"
  let erased := erased.getD ⟨[], .void⟩
  let generic ←
    match m.signatureIndex? pool with
    | some index =>
        let text ← pool.utf8 index
        orWarn (Signature.parseMethod? text)
          s!"malformed signature {Text.quoted text} on method {name}"
    | none => pure none
  let type := genericType erased generic
  let names ← parameterNames pool m erased.params
  let thrown ←
    if type.throws.isEmpty then
      (((m.thrown pool).mapM fun i => SourceType.ofInternal <$> pool.className i) :
        Except FormatFault (List SourceType))
    else pure type.throws
  let f := m.flags
  return {
    visibility := .ofMember f
    isStatic := f.isStatic
    isFinal := f.isFinal
    isAbstract := f.isAbstract
    isSynchronized := f.isSynchronized
    isNative := f.isNative
    isDefault := kind == .interface && !f.isAbstract && !f.isStatic && !f.isPrivate
    isSynthetic := f.isSynthetic
    isBridge := f.isBridge
    annotations := AnnotationUse.collect pool m.attributes
    typeParameters := type.typeParameters
    returnType := type.result
    name := name
    descriptor := descriptor
    parameters := parameters f.isVarargs type.params names
    thrown := thrown
    body := none
    error := none }

def classSignature (c : ClassFile) : Build (Option ClassSignature) :=
  match c.signature? with
  | some text =>
      orWarn (Signature.parseClass? text) s!"malformed class signature {Text.quoted text}"
  | none => return none

def erasedSuper : Option String → Option SourceType
  | some name => if name = "java/lang/Object" then none else some (.ofInternal name)
  | none => none

def classDecl (c : ClassFile) : Build ClassDecl := do
  let internalName ← c.thisName
  let kind := ClassKind.ofClass c.flags internalName
  let memberFlags := c.memberFlags? internalName
  let superName ← c.superName
  let interfaceNames ← c.interfaceNames
  let generic ← classSignature c
  let fields ← c.fields.mapM (field c.pool)
  let methods ← c.methods.mapM (method c.pool kind)
  return {
    kind := kind
    visibility := (memberFlags.map .ofMember).getD (.ofClass c.flags)
    isFinal := c.flags.isFinal
    isAbstract := c.flags.isAbstract
    isStatic := memberFlags.any (·.isStatic)
    isSynthetic := c.flags.isSynthetic
    annotations := AnnotationUse.collect c.pool c.attributes
    typeParameters := (generic.map (·.typeParameters)).getD []
    internalName := internalName
    name := (InternalName.split internalName).2
    superClass :=
      match generic with
      | some s => if s.superClass.isObject then none else some s.superClass
      | none => erasedSuper superName
    interfaces := (generic.map (·.interfaces)).getD (interfaceNames.map .ofInternal)
    fields := fields
    methods := methods
    sourceFile := c.sourceFile? }

end Declare

def ClassDecl.ofClass (c : ClassFile) : Except FormatFault (ClassDecl × List String) :=
  (Declare.classDecl c).run []

end JvmLift
