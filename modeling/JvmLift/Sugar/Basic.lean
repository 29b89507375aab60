import JvmLift.Sugar.Declarations
import JvmLift.Sugar.Switches
import JvmLift.Sugar.Values

/-!
From structured statements to the statements of the source language.
-/
namespace JvmLift

structure SugarOptions where
  ternary : Bool
  forLoops : Bool
  forEach : Bool
  enumSwitch : Bool
  stringSwitch : Bool
  deriving DecidableEq, Repr

def SugarOptions.all : SugarOptions := ⟨true, true, true, true, true⟩

structure SugarContext where
  resolver : Resolver
  returnType : ErasedType
  paramSlots : UInt16
  deriving Repr

namespace Sugar

def ternaries (stmts : List Tree) : List Tree :=
  let stmts := Tree.eachList collapseTernaries stmts
  Tree.eachList (inlineStackVars (.ofStmts stmts)) stmts

def returns (stmts : List Tree) : List Tree :=
  Tree.eachList (collapseReturns (.ofStmts stmts)) stmts

def elementLoops (stmts : List Tree) : List Tree :=
  Tree.eachList (recoverForEach (.ofStmts stmts)) stmts

def strings (stmts : List Tree) : List Tree :=
  Tree.eachList (recoverStrings (.ofStmts stmts)) stmts

def strings? (stmts : List Tree) : Option (List Tree) :=
  Tree.eachList? (recoverStrings? (.ofStmts stmts)) stmts

def when (on : Bool) (pass : List Tree → List Tree) (stmts : List Tree) : List Tree :=
  if on then pass stmts else stmts

def valuesAndLoops (ctx : SugarContext) (o : SugarOptions) (stmts : List Tree) : List Tree :=
  let stmts := when o.ternary ternaries stmts
  let stmts := returns (Tree.eachList (retypeBooleans ctx.returnType) stmts)
  let stmts := when o.forEach elementLoops stmts
  when o.forLoops (Tree.eachList recoverFor) stmts

/-- A plain return at the end of a void method is left out. -/
def dropLastReturn (returnType : ErasedType) (stmts : List Tree) : List Tree :=
  match returnType, stmts.getLast? with
  | .void, some (.simple ⟨.leave none, _, _, _⟩) => stmts.dropLast
  | _, _ => stmts

def enums (ctx : SugarContext) (o : SugarOptions) (stmts : List Tree) : List Tree :=
  when o.enumSwitch (Tree.eachList (recoverEnums ctx.resolver)) stmts

/-- The body from what it is before and after the recovery of switches, and the names that this looks up. -/
def finished (ctx : SugarContext) (o : SugarOptions) (body : MethodBody) (stmts switched : List Tree) :
    MethodBody × List String :=
  let found {α : Type} (g : Tree → List α) := if o.enumSwitch then Tree.gather g stmts else []
  ({ body with
      stmts := dropLastReturn ctx.returnType (declareAll ctx.paramSlots switched)
      warnings := body.warnings ++ found (enumWarning ctx.resolver) },
    found (enumLookups ctx.resolver))

end Sugar

/-- Brings a method body into the forms of the source language, unless the search for strings breaks
off, with the names it looks up. -/
def sugar? (ctx : SugarContext) (o : SugarOptions) (body : MethodBody) : Option (MethodBody × List String) := do
  let stmts := Sugar.valuesAndLoops ctx o body.stmts
  let switched := Sugar.enums ctx o stmts
  let switched ← if o.stringSwitch then Sugar.strings? switched else some switched
  return Sugar.finished ctx o body stmts switched

/-- The same with a search for strings that goes to the end. -/
def sugar (ctx : SugarContext) (o : SugarOptions) (body : MethodBody) : MethodBody × List String :=
  let stmts := Sugar.valuesAndLoops ctx o body.stmts
  Sugar.finished ctx o body stmts (Sugar.when o.stringSwitch Sugar.strings (Sugar.enums ctx o stmts))

end JvmLift
