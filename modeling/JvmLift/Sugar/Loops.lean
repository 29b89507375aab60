import JvmLift.Sugar.Vars

/-!
Loops over iterators and arrays, and counting loops.
-/
namespace JvmLift.Sugar

def unlabeled : Tree → Option String × Tree
  | .labeled name t => (some name, t)
  | t => (none, t)

def relabeled : Option String → Tree → Tree
  | some name, t => .labeled name t
  | none, t => t

def isCallOn (name : String) (v : LocalVar) : Expr → Bool
  | .call _ _ n _ (some (.localVar w)) [] => n == name && w.same v
  | _ => false

/-- `it = c.iterator(); while (it.hasNext()) { x = (T) it.next(); ... }` as a loop over `c`. -/
def iteratorLoop? (uses : VarUses) (init looped : Tree) : Option Tree :=
  match init.store?, unlabeled looped with
  | some (it, .call _ _ "iterator" _ (some iterable) []), (name, .whileLoop test (first :: body)) =>
      if isCallOn "hasNext" it test ∧ uses.reads it = 2 ∧ uses.writes it = 1 then do
        let (v, fetched) ← first.store?
        let (next, ty) :=
          match fetched with
          | .cast t e => (e, t)
          | e => (e, v.ty)
        if isCallOn "next" it next then
          some (relabeled name (.forEach { v with ty } iterable body))
        else none
      else none
  | _, _ => none

def isLengthOf (array : LocalVar) : Expr → Bool
  | .arrayLength (.localVar v) => v.same array
  | _ => false

def isZero : Expr → Bool
  | .intLit v => v == 0
  | _ => false

/-- What the two stores between the array and the loop set: the length and the index. -/
structure Cursor where
  length : Option LocalVar
  index : Option LocalVar

def Cursor.note (array : LocalVar) (c : Cursor) (t : Tree) : Option Cursor :=
  match t.store? with
  | some (v, value) =>
      if isLengthOf array value then some { c with length := some v }
      else if isZero value then some { c with index := some v }
      else none
  | none => none

def isBelow (index length : LocalVar) : Expr → Bool
  | .compare .lt (.localVar v) (.localVar w) => v.same index && w.same length
  | _ => false

def isElementOf (array index : LocalVar) : Expr → Bool
  | .arrayLoad (.localVar v) (.localVar w) _ => v.same array && w.same index
  | _ => false

def isStepOf (index : LocalVar) (t : Tree) : Bool :=
  match t.stmt? with
  | some (.increment v amount) => amount == 1 && v.same index
  | _ => false

/-- `a = e; n = a.length; k = 0; while (k < n) { x = a[k]; ...; k++; }` as a loop over `e`. -/
def arrayLoop? (uses : VarUses) (t₁ t₂ t₃ t₄ : Tree) : Option Tree := do
  let (array, iterable) ← t₁.store?
  let c ← Cursor.note array ⟨none, none⟩ t₂
  let c ← Cursor.note array c t₃
  let length ← c.length
  let index ← c.index
  match unlabeled t₄ with
  | (name, .whileLoop test (first :: second :: rest)) =>
      let last ← (second :: rest).getLast?
      let (v, element) ← first.store?
      if isBelow index length test ∧ isElementOf array index element ∧ isStepOf index last ∧
          uses.reads array = 2 ∧ uses.reads length = 1 ∧ uses.reads index = 2 ∧
          uses.writes index = 2 then
        some (relabeled name (.forEach v iterable (second :: rest).dropLast))
      else none
  | _ => none

def recoverForEach (uses : VarUses) : List Tree → List Tree
  | t₁ :: t₂ :: t₃ :: t₄ :: rest =>
      match iteratorLoop? uses t₁ t₂ with
      | some t => t :: recoverForEach uses (t₃ :: t₄ :: rest)
      | none =>
          match arrayLoop? uses t₁ t₂ t₃ t₄ with
          | some t => t :: recoverForEach uses rest
          | none => t₁ :: recoverForEach uses (t₂ :: t₃ :: t₄ :: rest)
  | t₁ :: t₂ :: rest =>
      match iteratorLoop? uses t₁ t₂ with
      | some t => t :: recoverForEach uses rest
      | none => t₁ :: recoverForEach uses (t₂ :: rest)
  | ts => ts

def counter? (t : Tree) : Option LocalVar :=
  match t.stmt? with
  | some (.increment v _) => some v
  | some (.store v value) => if value.reads v then some v else none
  | _ => none

def isTrueLit : Expr → Bool
  | .boolLit b => b
  | _ => false

/-- `i = init; while (test(i)) { ...; i++; }` as a counting loop, unless something continues to the
update. -/
def countingLoop? (init looped : Tree) : Option Tree :=
  match unlabeled looped with
  | (name, .whileLoop test body) =>
      if isTrueLit test ∨ Tree.continuesIn name false body then none
      else do
        let update ← body.getLast?
        let counter ← counter? update
        let (v, _) ← init.store?
        if v.same counter ∧ test.reads counter then
          some (relabeled name (.forLoop (some init) test (some update) body.dropLast))
        else none
  | _ => none

def countingFrom : Tree → List Tree → List Tree
  | t, [] => [t]
  | t, next :: rest =>
      match countingLoop? t next with
      | some t => countingFrom t rest
      | none => t :: countingFrom next rest

def recoverFor : List Tree → List Tree
  | [] => []
  | t :: rest => countingFrom t rest

end JvmLift.Sugar
