import JvmLift.Unit.References

/-!
Units as a stream of events for a printer: declarations, references, lines, indentation and blocks
of comments. Every start has its end.
-/
namespace JvmLift

inductive DeclKind where
  | type
  | field
  | method
  | constructor
  | package
  | module
  deriving DecidableEq, Repr

inductive Section where
  | declaration (kind : DeclKind)
  | indent
  | comment
  | javadoc
  | error
  | imports
  deriving DecidableEq, Repr

/-- `line` is the line of the statement that follows, `statement` names its construct, and a reference
to a member names the owner. -/
inductive Event where
  | startDeclaration (kind : DeclKind) (name : String)
  | endDeclaration (kind : DeclKind)
  | reference (kind : DeclKind) (name : String) (owner : Option String)
  | line (n : UInt16)
  | statement (construct : String)
  | text (s : String)
  | indent
  | unindent
  | startComment
  | endComment
  | startJavadoc
  | endJavadoc
  | startError
  | endError
  | startImports
  | endImports
  deriving DecidableEq, Repr

namespace Event

def opened? : Event → Option Section
  | .startDeclaration kind _ => some (.declaration kind)
  | .indent => some .indent
  | .startComment => some .comment
  | .startJavadoc => some .javadoc
  | .startError => some .error
  | .startImports => some .imports
  | _ => none

def closed? : Event → Option Section
  | .endDeclaration kind => some (.declaration kind)
  | .unindent => some .indent
  | .endComment => some .comment
  | .endJavadoc => some .javadoc
  | .endError => some .error
  | .endImports => some .imports
  | _ => none

def ofComment (text : String) : List Event := [.startComment, .text text, .endComment]

def ofNode : Expr → List Event
  | .fieldGet owner name _ _ => [.reference .field name (some owner)]
  | .call _ owner name _ _ _ => [.reference .method name (some owner)]
  | .new className _ _ => [.reference .constructor "<init>" (some className)]
  | _ => []

def ofExpr (e : Expr) : List Event := e.nodes.flatMap ofNode

end Event

namespace Tree

/-- Expressions of a statement, of the parts of a `for`, and of what a label names. -/
def headExprs : Tree → List Expr
  | .forLoop none e none _ => [e]
  | .forLoop (some i) e none _ => i.headExprs ++ [e]
  | .forLoop none e (some u) _ => e :: u.headExprs
  | .forLoop (some i) e (some u) _ => i.headExprs ++ e :: u.headExprs
  | .labeled _ t => t.headExprs
  | t => t.ownExprs

def lineEvents : Tree → List Event
  | .simple s => s.line.toList.map .line
  | .declare _ _ line => line.toList.map .line
  | _ => []

def ownReferences : Tree → List Event
  | .simple ⟨.fieldStore owner name _ _ _, _, _, _⟩ => [.reference .field name (some owner)]
  | .tryCatch _ _ clauses _ =>
      clauses.flatMap fun c => c.1.types.map (.reference .type · none)
  | .switch (.enum name) _ _ => [.reference .type name none]
  | _ => []

def headEvents (t : Tree) : List Event :=
  t.lineEvents ++ .statement t.kindName :: (t.ownReferences ++ t.ownExprs.flatMap Event.ofExpr)

/-- References in the parts of a `for`, its first part and its update before its condition. -/
def partEvents (part : Option Tree) : List Event :=
  part.toList.flatMap fun t => t.headExprs.flatMap Event.ofExpr

mutual

def events : Tree → List Event
  | .comment text => Event.ofComment text
  | .labeled _ t => .statement "Labeled" :: t.events
  | .forLoop i e u b =>
      .statement "For" :: (partEvents i ++ partEvents u ++ Event.ofExpr e ++
        .indent :: (eventsList b ++ [.unindent]))
  | .ifElse e t b => (Tree.ifElse e t b).headEvents ++
      .indent :: (eventsList t ++ [.unindent]) ++ eventsBlock b
  | .whileLoop e b => (Tree.whileLoop e b).headEvents ++ .indent :: (eventsList b ++ [.unindent])
  | .doWhile b e => (Tree.doWhile b e).headEvents ++ .indent :: (eventsList b ++ [.unindent])
  | .forEach v e b => (Tree.forEach v e b).headEvents ++ .indent :: (eventsList b ++ [.unindent])
  | .synchronized e b =>
      (Tree.synchronized e b).headEvents ++ .indent :: (eventsList b ++ [.unindent])
  | .switch k e arms => (Tree.switch k e arms).headEvents ++ eventsArms arms
  | .tryCatch s b cs c => (Tree.tryCatch s b cs c).headEvents ++
      .indent :: (eventsList b ++ [.unindent]) ++ eventsClauses cs ++ eventsBlock c
  | t => t.headEvents

def eventsList : List Tree → List Event
  | [] => []
  | t :: ts => t.events ++ eventsList ts

def eventsBlock : Option (List Tree) → List Event
  | none => []
  | some b => .indent :: (eventsList b ++ [.unindent])

def eventsArms : List (Arm × List Tree) → List Event
  | [] => []
  | (_, b) :: rest => .indent :: (eventsList b ++ [.unindent]) ++ eventsArms rest

def eventsClauses : List (Clause × List Tree) → List Event
  | [] => []
  | (_, b) :: rest => .indent :: (eventsList b ++ [.unindent]) ++ eventsClauses rest

end

end Tree

namespace Event

/-- A deprecated element is announced. -/
def ofAnnotations (as : List AnnotationUse) : List Event :=
  if as.any (·.typeName == "java/lang/Deprecated") then
    [.startJavadoc, .text "@deprecated", .endJavadoc]
  else []

def ofField (f : FieldDecl) : List Event :=
  ofAnnotations f.annotations ++ .startDeclaration .field f.name ::
    (f.initializer.toList.flatMap ofExpr ++ [.endDeclaration .field])

def ofBody (b : MethodBody) : List Event :=
  (if b.approximate then ofComment "control flow could not be fully structured" else []) ++
    b.warnings.flatMap ofComment ++ .indent :: (Tree.eventsList b.stmts ++ [.unindent])

def ofMethod (m : MethodDecl) : List Event :=
  let kind : DeclKind := if m.isConstructor then .constructor else .method
  ofAnnotations m.annotations ++ .startDeclaration kind m.name ::
    (m.error.toList.flatMap (fun e => [.startError, .text e, .endError]) ++
      m.body.toList.flatMap ofBody ++ [.endDeclaration kind])

def ofClass (c : ClassDecl) (includeSynthetic : Bool) : List Event :=
  let kind : DeclKind := if c.kind = .module then .module else .type
  let fields := c.fields.filter fun f => includeSynthetic || !f.isSynthetic
  let methods := c.methods.filter fun m => includeSynthetic || !(m.isSynthetic || m.isBridge)
  ofAnnotations c.annotations ++ .startDeclaration kind c.internalName :: .indent ::
    (fields.flatMap ofField ++ methods.flatMap ofMethod ++ [.unindent, .endDeclaration kind])

def ofPackage (package : String) : List Event :=
  [.startDeclaration .package package, .endDeclaration .package]

/-- The events of a unit in source order. Synthetic members are left out unless asked for. -/
def ofUnit (u : CompilationUnit) (includeSynthetic : Bool) : List Event :=
  u.package.toList.flatMap ofPackage ++
    .startImports :: (u.references.counts.map fun (name, _) => .reference .type name none) ++
    .endImports :: u.warnings.flatMap ofComment ++ ofClass u.decl includeSynthetic

end Event

end JvmLift
