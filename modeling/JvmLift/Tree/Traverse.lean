import JvmLift.Tree.Basic

/-!
Traversals of structured statements.
-/
namespace JvmLift.Tree

mutual

/-- The statement and everything nested in it, outermost first. -/
def nodes : Tree → List Tree
  | .ifElse e t b => .ifElse e t b :: (nodesList t ++ nodesBlock b)
  | .whileLoop e b => .whileLoop e b :: nodesList b
  | .doWhile b e => .doWhile b e :: nodesList b
  | .forLoop i e u b => .forLoop i e u b :: (nodesPart i ++ nodesPart u ++ nodesList b)
  | .forEach v e b => .forEach v e b :: nodesList b
  | .switch k e arms => .switch k e arms :: nodesArms arms
  | .tryCatch s b cs f => .tryCatch s b cs f :: (nodesList b ++ nodesClauses cs ++ nodesBlock f)
  | .synchronized e b => .synchronized e b :: nodesList b
  | .labeled name b => .labeled name b :: b.nodes
  | t => [t]

def nodesPart : Option Tree → List Tree
  | none => []
  | some t => t.nodes

def nodesBlock : Option (List Tree) → List Tree
  | none => []
  | some ts => nodesList ts

def nodesList : List Tree → List Tree
  | [] => []
  | t :: ts => t.nodes ++ nodesList ts

def nodesArms : List (Arm × List Tree) → List Tree
  | [] => []
  | (_, b) :: rest => nodesList b ++ nodesArms rest

def nodesClauses : List (Clause × List Tree) → List Tree
  | [] => []
  | (_, b) :: rest => nodesList b ++ nodesClauses rest

end

mutual

def mapLists (f : List Tree → List Tree) : Tree → Tree
  | .ifElse e t b => .ifElse e (f (mapListsIn f t)) (mapBlock f b)
  | .whileLoop e b => .whileLoop e (f (mapListsIn f b))
  | .doWhile b e => .doWhile (f (mapListsIn f b)) e
  | .forLoop i e u b => .forLoop i e u (f (mapListsIn f b))
  | .forEach v e b => .forEach v e (f (mapListsIn f b))
  | .switch k e arms => .switch k e (mapArms f arms)
  | .tryCatch s b cs c => .tryCatch s (f (mapListsIn f b)) (mapClauses f cs) (mapBlock f c)
  | .synchronized e b => .synchronized e (f (mapListsIn f b))
  | .labeled name b => .labeled name (b.mapLists f)
  | t => t

def mapBlock (f : List Tree → List Tree) : Option (List Tree) → Option (List Tree)
  | none => none
  | some ts => some (f (mapListsIn f ts))

def mapListsIn (f : List Tree → List Tree) : List Tree → List Tree
  | [] => []
  | t :: ts => t.mapLists f :: mapListsIn f ts

def mapArms (f : List Tree → List Tree) : List (Arm × List Tree) → List (Arm × List Tree)
  | [] => []
  | (arm, b) :: rest => (arm, f (mapListsIn f b)) :: mapArms f rest

def mapClauses (f : List Tree → List Tree) :
    List (Clause × List Tree) → List (Clause × List Tree)
  | [] => []
  | (clause, b) :: rest => (clause, f (mapListsIn f b)) :: mapClauses f rest

end

/-- Maps a statement list and every list nested in it, the innermost first. -/
def eachList (f : List Tree → List Tree) (stmts : List Tree) : List Tree := f (mapListsIn f stmts)

mutual

def mapLists? (f : List Tree → Option (List Tree)) : Tree → Option Tree
  | .ifElse e t b => return .ifElse e (← f (← mapListsIn? f t)) (← mapBlock? f b)
  | .whileLoop e b => return .whileLoop e (← f (← mapListsIn? f b))
  | .doWhile b e => return .doWhile (← f (← mapListsIn? f b)) e
  | .forLoop i e u b => return .forLoop i e u (← f (← mapListsIn? f b))
  | .forEach v e b => return .forEach v e (← f (← mapListsIn? f b))
  | .switch k e arms => return .switch k e (← mapArms? f arms)
  | .tryCatch s b cs c => return .tryCatch s (← f (← mapListsIn? f b)) (← mapClauses? f cs) (← mapBlock? f c)
  | .synchronized e b => return .synchronized e (← f (← mapListsIn? f b))
  | .labeled name b => return .labeled name (← b.mapLists? f)
  | t => some t

def mapBlock? (f : List Tree → Option (List Tree)) : Option (List Tree) → Option (Option (List Tree))
  | none => some none
  | some ts => return some (← f (← mapListsIn? f ts))

def mapListsIn? (f : List Tree → Option (List Tree)) : List Tree → Option (List Tree)
  | [] => some []
  | t :: ts => return (← t.mapLists? f) :: (← mapListsIn? f ts)

def mapArms? (f : List Tree → Option (List Tree)) : List (Arm × List Tree) → Option (List (Arm × List Tree))
  | [] => some []
  | (arm, b) :: rest => return (arm, ← f (← mapListsIn? f b)) :: (← mapArms? f rest)

def mapClauses? (f : List Tree → Option (List Tree)) :
    List (Clause × List Tree) → Option (List (Clause × List Tree))
  | [] => some []
  | (clause, b) :: rest => return (clause, ← f (← mapListsIn? f b)) :: (← mapClauses? f rest)

end

/-- The same where a list may stop it. -/
def eachList? (f : List Tree → Option (List Tree)) (stmts : List Tree) : Option (List Tree) := do
  f (← mapListsIn? f stmts)

mutual

/-- What `g` finds in the statements of every nested list, the innermost list first. -/
def gatherNested {α : Type} (g : Tree → List α) : Tree → List α
  | .ifElse _ t b => gatherIn g t ++ t.flatMap g ++ gatherBlock g b
  | .whileLoop _ b | .doWhile b _ | .forLoop _ _ _ b | .forEach _ _ b | .synchronized _ b =>
      gatherIn g b ++ b.flatMap g
  | .switch _ _ arms => gatherArms g arms
  | .tryCatch _ b cs c =>
      gatherIn g b ++ b.flatMap g ++ gatherClauses g cs ++ gatherBlock g c
  | .labeled _ b => b.gatherNested g
  | _ => []

def gatherBlock {α : Type} (g : Tree → List α) : Option (List Tree) → List α
  | none => []
  | some ts => gatherIn g ts ++ ts.flatMap g

def gatherIn {α : Type} (g : Tree → List α) : List Tree → List α
  | [] => []
  | t :: ts => t.gatherNested g ++ gatherIn g ts

def gatherArms {α : Type} (g : Tree → List α) : List (Arm × List Tree) → List α
  | [] => []
  | (_, b) :: rest => gatherIn g b ++ b.flatMap g ++ gatherArms g rest

def gatherClauses {α : Type} (g : Tree → List α) : List (Clause × List Tree) → List α
  | [] => []
  | (_, b) :: rest => gatherIn g b ++ b.flatMap g ++ gatherClauses g rest

end

/-- What `g` finds in a list and all lists nested in it, in the order of `eachList`. -/
def gather {α : Type} (g : Tree → List α) (stmts : List Tree) : List α :=
  gatherIn g stmts ++ stmts.flatMap g

def bracketed (kind : String) : List String → String
  | [] => kind
  | blocks => kind ++ "[" ++ String.intercalate "|" blocks ++ "]"

mutual

/-- The nesting of a statement as text, such as `While[Simple]`. -/
def shape : Tree → String
  | .ifElse _ t b => bracketed "If" (String.intercalate "," (shapes t) :: shapesBlock b)
  | .whileLoop _ b => bracketed "While" [String.intercalate "," (shapes b)]
  | .doWhile b _ => bracketed "DoWhile" [String.intercalate "," (shapes b)]
  | .forLoop _ _ _ b => bracketed "For" [String.intercalate "," (shapes b)]
  | .forEach _ _ b => bracketed "ForEach" [String.intercalate "," (shapes b)]
  | .synchronized _ b => bracketed "Synchronized" [String.intercalate "," (shapes b)]
  | .switch _ _ arms => bracketed "Switch" (shapesArms arms)
  | .tryCatch _ b cs c =>
      bracketed "Try" (String.intercalate "," (shapes b) :: shapesClauses cs ++ shapesBlock c)
  | .labeled _ b => bracketed "Labeled" [b.shape]
  | t => t.kindName

def shapes : List Tree → List String
  | [] => []
  | t :: ts => t.shape :: shapes ts

def shapesBlock : Option (List Tree) → List String
  | none => []
  | some ts => [String.intercalate "," (shapes ts)]

def shapesArms : List (Arm × List Tree) → List String
  | [] => []
  | (_, b) :: rest => String.intercalate "," (shapes b) :: shapesArms rest

def shapesClauses : List (Clause × List Tree) → List String
  | [] => []
  | (_, b) :: rest => String.intercalate "," (shapes b) :: shapesClauses rest

end

def shapeOf (stmts : List Tree) : String := String.intercalate "," (shapes stmts)

mutual

/-- Does the statement continue the loop around it, which may have a label? Inside a nested loop
only a `continue` with the label does. -/
def continues (name : Option String) (nested : Bool) : Tree → Bool
  | .continueTo none => !nested
  | .continueTo (some n) => some n == name
  | .whileLoop _ b | .doWhile b _ | .forLoop _ _ _ b | .forEach _ _ b => continuesIn name true b
  | .labeled _ t => continues name nested t
  | .ifElse _ t e => continuesIn name nested t || continuesBlock name nested e
  | .switch _ _ arms => continuesArms name nested arms
  | .tryCatch _ b cs c =>
      continuesIn name nested b || continuesClauses name nested cs || continuesBlock name nested c
  | .synchronized _ b => continuesIn name nested b
  | _ => false

def continuesIn (name : Option String) (nested : Bool) : List Tree → Bool
  | [] => false
  | t :: ts => continues name nested t || continuesIn name nested ts

def continuesBlock (name : Option String) (nested : Bool) : Option (List Tree) → Bool
  | none => false
  | some ts => continuesIn name nested ts

def continuesArms (name : Option String) (nested : Bool) : List (Arm × List Tree) → Bool
  | [] => false
  | (_, b) :: rest => continuesIn name nested b || continuesArms name nested rest

def continuesClauses (name : Option String) (nested : Bool) : List (Clause × List Tree) → Bool
  | [] => false
  | (_, b) :: rest => continuesIn name nested b || continuesClauses name nested rest

end

end JvmLift.Tree
