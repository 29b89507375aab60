import JvmLift.Block.Basic

/-!
Duplicated values. A value that is duplicated is computed where a `dupStore` stands and read by
`dupLoad`s. Settling decides for each value whether it moves to its only read, belongs to the local
it is stored in, or becomes a temporary.
-/
namespace JvmLift

structure Duplicates where
  values : List Expr
  deriving Repr

inductive Settlement where
  | inlined (value : Expr)
  | var (v : LocalVar)
  deriving Repr

namespace Duplicates

def empty : Duplicates := ⟨[]⟩

def get? (ds : Duplicates) (id : Nat) : Option Expr := ds.values[id]?

def isLoadOf (id : Nat) : Expr → Bool
  | .dupLoad n => n == id
  | _ => false

def usesIn (id : Nat) (nodes : List Expr) : Nat := nodes.countP (isLoadOf id)

/-- The block that reads inside duplicated values are counted for: the last of all. -/
def valuesBlock : BlockId := 0xFFFFFFFF

def usesInValues (ds : Duplicates) (id : Nat) : Nat := usesIn id (ds.values.flatMap (·.nodes))

def usesAt (ds : Duplicates) (b : Block) (id : Nat) : Nat :=
  usesIn id b.nodes + if b.id = valuesBlock then ds.usesInValues id else 0

def totalUses (ds : Duplicates) (blocks : List Block) (id : Nat) : Nat :=
  usesIn id (blocks.flatMap (·.nodes)) + ds.usesInValues id

structure Progress where
  settled : List (Nat × Settlement)
  nextTemp : UInt16

/-- The local slot that takes the value of a duplicate at once. -/
def storedTo? (id : Nat) : Stmt → Option LocalVar
  | .store v (.dupLoad n) => if n = id ∧ v.origin = .slot then some v else none
  | _ => none

/-- Settles what the statement `s` computes, given the value and how often it is read. -/
def settle (p : Progress) (s : Located) (id : Nat) (value : Expr) (total here : Nat) : Progress × List Located :=
  if total = 0 then
    (p, if value.hasSideEffects then [s.withStmt (.expr value)] else [])
  else if total = 1 ∧ here = 1 then
    (⟨(id, .inlined value) :: p.settled, p.nextTemp⟩, [])
  else
    let v := LocalVar.ofTemp p.nextTemp value.ty
    (⟨(id, .var v) :: p.settled, p.nextTemp + 1⟩, [s.withStmt (.store v value)])

/-- Settles the duplicates of a run of statements. `total` and `here` count reads, in all and in the
block at hand. A number without a value loses its statement. -/
def settleStmts (ds : Duplicates) (total here : Nat → Nat) :
    Progress → List Located → Progress × List Located
  | p, [] => (p, [])
  | p, s :: rest =>
      match s.stmt with
      | .dupStore id =>
          match ds.get? id with
          | none => settleStmts ds total here p rest
          | some value =>
              match rest with
              | [] => settle p s id value (total id) (here id)
              | next :: rest =>
                  match storedTo? id next.stmt with
                  | some v =>
                      let (p, out) := settleStmts ds total here ⟨(id, .var v) :: p.settled, p.nextTemp⟩ rest
                      (p, next.withStmt (.store v value) :: out)
                  | none =>
                      let (p, kept) := settle p s id value (total id) (here id)
                      let (p, out) := settleStmts ds total here p (next :: rest)
                      (p, kept ++ out)
      | _ =>
          let (p, out) := settleStmts ds total here p rest
          (p, s :: out)

def settleBlocks (ds : Duplicates) (total : Nat → Nat) :
    Progress → List Block → Progress × List Block
  | p, [] => (p, [])
  | p, b :: rest =>
      let (p, stmts) := ds.settleStmts total (ds.usesAt b) p b.stmts
      let (p, rest) := settleBlocks ds total p rest
      (p, { b with stmts } :: rest)

/-- Puts settled values in place of their reads, where values that move nest at most `depth` deep. -/
def replaceLoads (settled : List (Nat × Settlement)) : Nat → Expr → Expr
  | 0, e => e
  | depth + 1, .dupLoad id =>
      match settled.lookup id with
      | some (.inlined value) => value.mapNodes (replaceLoads settled depth)
      | some (.var v) => .localVar v
      | none => .dupLoad id
  | _ + 1, e => e

/-- Removes every duplicate from some blocks, and numbers temporaries from `nextTemp` on. -/
def resolve (ds : Duplicates) (blocks : List Block) (nextTemp : UInt16) : List Block × UInt16 :=
  if ds.values.isEmpty then (blocks, nextTemp)
  else
    let (p, settled) := ds.settleBlocks (ds.totalUses blocks) ⟨[], nextTemp⟩ blocks
    (settled.map (·.mapNodes (replaceLoads p.settled (ds.values.length + 1))), p.nextTemp)

end Duplicates

end JvmLift
