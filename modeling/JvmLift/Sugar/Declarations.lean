import JvmLift.Sugar.Vars

/-!
Declarations of locals. Every variable is declared in the innermost list that encloses all of its
uses, at its first assignment where that is a plain store.
-/
namespace JvmLift.Sugar

/-- Variables that the node itself names, with the parts of a `for` and what a label names. -/
def namedVars : Tree → List LocalVar
  | .simple s => (Tree.simple s).ownReads ++ s.stmt.written?.toList
  | .declare v init line => (Tree.declare v init line).ownReads ++ [v]
  | .forLoop none e none b => (Tree.forLoop none e none b).ownReads
  | .forLoop (some i) e none b => (Tree.forLoop (some i) e none b).ownReads ++ namedVars i
  | .forLoop none e (some u) b => (Tree.forLoop none e (some u) b).ownReads ++ namedVars u
  | .forLoop (some i) e (some u) b =>
      (Tree.forLoop (some i) e (some u) b).ownReads ++ namedVars i ++ namedVars u
  | .labeled _ t => namedVars t
  | t => t.ownReads

def initVar : Option Tree → List LocalVar
  | some (.declare v _ _) => [v]
  | _ => []

def unbound (bound : List VarKey) (vars : List LocalVar) : List LocalVar :=
  vars.filter fun v => !bound.contains v.key

mutual

/-- Free variables of the nested lists. Catch clauses and loops over elements bind a variable. -/
def nestedVars (bound : List VarKey) : Tree → List LocalVar
  | .ifElse _ t b => varsIn bound t ++ varsBlock bound b
  | .whileLoop _ b | .doWhile b _ | .synchronized _ b => varsIn bound b
  | .forLoop i _ _ b => varsIn ((initVar i).map (·.key) ++ bound) b
  | .forEach v _ b => varsIn (v.key :: bound) b
  | .switch _ _ arms => varsArms bound arms
  | .tryCatch _ b cs c => varsIn bound b ++ varsClauses bound cs ++ varsBlock bound c
  | .labeled _ t => nestedVars bound t
  | _ => []

def varsIn (bound : List VarKey) : List Tree → List LocalVar
  | [] => []
  | t :: ts => unbound bound (namedVars t) ++ nestedVars bound t ++ varsIn bound ts

def varsBlock (bound : List VarKey) : Option (List Tree) → List LocalVar
  | none => []
  | some ts => varsIn bound ts

def varsArms (bound : List VarKey) : List (Arm × List Tree) → List LocalVar
  | [] => []
  | (_, b) :: rest => varsIn bound b ++ varsArms bound rest

def varsClauses (bound : List VarKey) : List (Clause × List Tree) → List LocalVar
  | [] => []
  | (c, b) :: rest => varsIn (c.var.key :: bound) b ++ varsClauses bound rest

end

def freeVars (bound : List VarKey) (t : Tree) : List LocalVar :=
  unbound bound (namedVars t) ++ nestedVars bound t

def scopes : Tree → List (List LocalVar × List Tree)
  | .tryCatch _ b cs c =>
      ([], b) :: cs.map (fun (clause, body) => ([clause.var], body)) ++ c.toList.map ([], ·)
  | .forEach v _ b => [([v], b)]
  | .forLoop i _ _ b => [(initVar i, b)]
  | .labeled _ t => scopes t
  | t => t.children.map ([], ·)

/-- Is the variable used in exactly one nested list and nowhere else in the statement? -/
def defersToNested (t : Tree) (k : VarKey) : Bool :=
  !(namedVars t).any (·.key == k) &&
    ((scopes t).countP fun (binds, list) =>
      (varsIn (binds.map (·.key)) list).any (·.key == k)) == 1

/-- Is the statement a plain store that can declare the variable? -/
def storesTo (k : VarKey) : Tree → Bool
  | .forLoop (some i) _ _ _ => storesTo k i
  | .labeled _ t => storesTo k t
  | t =>
      match t.store? with
      | some (v, _) => v.key == k
      | none => false

def declared : Tree → Tree
  | .forLoop (some i) e u b => .forLoop (some (declared i)) e u b
  | .labeled name t => .labeled name (declared t)
  | .simple ⟨.store v value, _, _, line⟩ => .declare v (some value) line
  | t => t

/-- Slots of the receiver and the parameters are never declared. -/
def isParam (slots : UInt16) (v : LocalVar) : Bool := v.origin == .slot && v.index < slots

def distinctVars : List LocalVar → List LocalVar
  | [] => []
  | v :: vs => v :: (distinctVars vs).filter (·.key ≠ v.key)

/-- A declaration that belongs into a list: at which statement, and whether that declares it. -/
structure Placement where
  var : LocalVar
  index : Nat
  inPlace : Bool
  deriving Repr

/-- Where a variable of a list is declared, unless a nested list declares it. -/
def placement? (stmts : List Tree) (mentions : List (List VarKey)) (v : LocalVar) : Option Placement := do
  let users := mentions.zipIdx.filterMap fun (keys, i) => if keys.contains v.key then some i else none
  let first ← users.head?
  let t ← stmts[first]?
  if users.length = 1 ∧ defersToNested t v.key then none
  else some ⟨v, first, storesTo v.key t⟩

/-- The declarations that belong into a list itself, in the order of their variables. -/
def placements (slots : UInt16) (bound : List VarKey) (stmts : List Tree) : List Placement :=
  let vars := stmts.map fun t => (freeVars bound t).filter fun v => !isParam slots v
  let mentions := vars.map fun vs => vs.map (·.key)
  let distinct := (distinctVars vars.flatten).mergeSort fun a b => a.key.le b.key
  distinct.filterMap (placement? stmts mentions)

def innerBound (bound : List VarKey) (ps : List Placement) : List VarKey :=
  ps.map (·.var.key) ++ bound

/-- One statement with the declarations that belong to its place. Bare declarations stand in front,
the last variable first. -/
def withDeclarations (ps : List Placement) (i : Nat) (t : Tree) : List Tree :=
  let here := ps.filter (·.index == i)
  let bare := here.filter fun p => !p.inPlace
  bare.reverse.map (fun p => .declare p.var none none) ++
    [if here.any (·.inPlace) then declared t else t]

mutual

def declareNested (slots : UInt16) (bound : List VarKey) : Tree → Tree
  | .ifElse e t b =>
      .ifElse e (declareIn slots (innerBound bound (placements slots bound t))
        (placements slots bound t) 0 t) (declareBlock slots bound b)
  | .whileLoop e b =>
      .whileLoop e (declareIn slots (innerBound bound (placements slots bound b))
        (placements slots bound b) 0 b)
  | .doWhile b e =>
      .doWhile (declareIn slots (innerBound bound (placements slots bound b))
        (placements slots bound b) 0 b) e
  | .synchronized e b =>
      .synchronized e (declareIn slots (innerBound bound (placements slots bound b))
        (placements slots bound b) 0 b)
  | .forLoop i e u b =>
      let bound := (initVar i).map (·.key) ++ bound
      .forLoop i e u (declareIn slots (innerBound bound (placements slots bound b))
        (placements slots bound b) 0 b)
  | .forEach v e b =>
      let bound := v.key :: bound
      .forEach v e (declareIn slots (innerBound bound (placements slots bound b))
        (placements slots bound b) 0 b)
  | .switch k e arms => .switch k e (declareArms slots bound arms)
  | .tryCatch s b cs c =>
      .tryCatch s (declareIn slots (innerBound bound (placements slots bound b))
        (placements slots bound b) 0 b) (declareClauses slots bound cs) (declareBlock slots bound c)
  | .labeled name t => .labeled name (declareNested slots bound t)
  | t => t

/-- Declares variables in the statements of a list from the `i`-th on, with the placements of the
list given. -/
def declareIn (slots : UInt16) (bound : List VarKey) (ps : List Placement) :
    Nat → List Tree → List Tree
  | _, [] => []
  | i, t :: ts =>
      withDeclarations ps i (declareNested slots bound t) ++ declareIn slots bound ps (i + 1) ts

def declareBlock (slots : UInt16) (bound : List VarKey) : Option (List Tree) → Option (List Tree)
  | none => none
  | some b =>
      some (declareIn slots (innerBound bound (placements slots bound b))
        (placements slots bound b) 0 b)

def declareArms (slots : UInt16) (bound : List VarKey) :
    List (Arm × List Tree) → List (Arm × List Tree)
  | [] => []
  | (arm, b) :: rest =>
      (arm, declareIn slots (innerBound bound (placements slots bound b))
        (placements slots bound b) 0 b) :: declareArms slots bound rest

def declareClauses (slots : UInt16) (bound : List VarKey) :
    List (Clause × List Tree) → List (Clause × List Tree)
  | [] => []
  | (c, b) :: rest =>
      let inner := c.var.key :: bound
      (c, declareIn slots (innerBound inner (placements slots inner b))
        (placements slots inner b) 0 b) :: declareClauses slots bound rest

end

def declareAll (slots : UInt16) (stmts : List Tree) : List Tree :=
  let ps := placements slots [] stmts
  declareIn slots (innerBound [] ps) ps 0 stmts

end JvmLift.Sugar
