import JvmLift.Expr.Condition
import JvmLift.Sugar.Vars

/-!
Values that the compiler spread over statements: ternaries, stack variables, booleans and returned
temporaries.
-/
namespace JvmLift.Sugar

def inPlaceOf : Tree → Stmt → Tree
  | .simple s, stmt => .simple (s.withStmt stmt)
  | _, stmt => .synthetic stmt

/-! ### Ternaries and stack variables -/

/-- `if (c) { stackN = a; } else { stackN = b; }` as `stackN = c ? a : b`. -/
def ternaryStore? : Tree → Option Tree
  | .ifElse e [t] (some [f]) => do
      let (v, a) ← t.store?
      let (w, b) ← f.store?
      if v.origin = .stack ∧ v.same w then some (inPlaceOf t (.store v (.ternary e a b))) else none
  | _ => none

def collapseTernaries (stmts : List Tree) : List Tree :=
  stmts.map fun t => (ternaryStore? t).getD t

def evaluatedOnce : Tree → Bool
  | .simple _ | .declare .. | .ifElse .. | .switch .. | .synchronized .. | .forEach .. => true
  | _ => false

/-- The store of a stack variable that only the next statement reads. -/
def stackStore? (uses : VarUses) (t next : Tree) : Option (LocalVar × Expr) :=
  match t.store? with
  | some (v, value) =>
      if v.origin = .stack ∧ uses.reads v = 1 ∧ uses.writes v = 1 ∧ next.countOwnReads v = 1 ∧
          evaluatedOnce next then
        some (v, value)
      else none
  | none => none

def inlineFrom (uses : VarUses) : Tree → List Tree → List Tree
  | t, [] => [t]
  | t, next :: rest =>
      match stackStore? uses t next with
      | some (v, value) => inlineFrom uses (next.mapOwn (Expr.replaceRead v value)) rest
      | none => t :: inlineFrom uses next rest

def inlineStackVars (uses : VarUses) : List Tree → List Tree
  | [] => []
  | t :: rest => inlineFrom uses t rest

/-! ### Booleans -/

def truth? : Expr → Option Bool
  | .intLit v => if v = 1 then some true else if v = 0 then some false else none
  | .boolLit b => some b
  | _ => none

def isBooleanValued : Expr → Bool
  | .ternary _ a b => isBooleanValued a && isBooleanValued b
  | e => (truth? e).isSome

/-- An integer expression used as a truth value: `c ? 1 : 0` is `c`. -/
def toBoolean : Expr → Expr
  | .ternary e a b =>
      match truth? a, truth? b with
      | some true, some false => e
      | some false, some true => e.negate
      | _, _ => .ternary e (toBoolean a) (toBoolean b)
  | e => e.retype .boolean

def booleanArgs (descriptor : String) (args : List Expr) : List Expr :=
  match Descriptor.parseMethod? descriptor with
  | some t =>
      if t.params.length = args.length then
        List.zipWith (fun a p => if p = .boolean then toBoolean a else a) args t.params
      else args
  | none => args

def isTernary : Expr → Bool
  | .ternary .. => true
  | _ => false

def isIntLit (n : Int32) : Expr → Bool
  | .intLit v => v == n
  | _ => false

def booleanOperands : Expr → Expr
  | .compare op l r =>
      if (op = .eq ∨ op = .ne) ∧ isTernary l ∧ isBooleanValued l ∧ isIntLit 0 r then
        if op = .ne then toBoolean l else (toBoolean l).negate
      else .compare op l r
  | .call kind owner name d receiver args => .call kind owner name d receiver (booleanArgs d args)
  | .new name d args => .new name d (booleanArgs d args)
  | e => e

def booleanResult (returnType : ErasedType) : Stmt → Stmt
  | .store v value => .store v (if v.ty = .boolean then toBoolean value else value)
  | .fieldStore owner name t object value =>
      .fieldStore owner name t object (if t = .boolean then toBoolean value else value)
  | .leave (some value) => .leave (some (if returnType = .boolean then toBoolean value else value))
  | s => s

def retypeBoolean (returnType : ErasedType) : Tree → Tree
  | .simple s =>
      Tree.mapOwn booleanOperands (.simple (s.withStmt (booleanResult returnType s.stmt)))
  | t => t.mapOwn booleanOperands

def retypeBooleans (returnType : ErasedType) (stmts : List Tree) : List Tree :=
  stmts.map (retypeBoolean returnType)

/-! ### Returned temporaries -/

def isTemporary (v : LocalVar) : Bool := v.origin != .slot || v.name.isNone

def returned? (uses : VarUses) (t : Tree) : Option LocalVar :=
  match t.stmt? with
  | some (.leave (some (.localVar v))) => if isTemporary v ∧ uses.reads v = 1 then some v else none
  | _ => none

def storeAsReturn? (v : LocalVar) (t : Tree) : Option Tree :=
  match t.store? with
  | some (w, value) => if w.same v then some (inPlaceOf t (.leave (some value))) else none
  | none => none

def lastStoreAsReturn? (v : LocalVar) (stmts : List Tree) : Option (List Tree) := do
  let last ← stmts.getLast?
  let t ← storeAsReturn? v last
  return stmts.dropLast ++ [t]

/-- `t = e` as `return e`, also at the end of a region that has only a finalizer. -/
def asReturn? (v : LocalVar) (t : Tree) : Option Tree :=
  match t with
  | .tryCatch shape body [] cleanup =>
      (lastStoreAsReturn? v body).map fun body => .tryCatch shape body [] cleanup
  | t => storeAsReturn? v t

def returnFrom (uses : VarUses) : Tree → List Tree → List Tree
  | t, [] => [t]
  | t, next :: rest =>
      match (returned? uses next).bind (asReturn? · t) with
      | some t => returnFrom uses t rest
      | none => t :: returnFrom uses next rest

def collapseReturns (uses : VarUses) : List Tree → List Tree
  | [] => []
  | t :: rest => returnFrom uses t rest

end JvmLift.Sugar
