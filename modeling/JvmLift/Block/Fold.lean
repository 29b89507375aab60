import JvmLift.Block.Basic
import JvmLift.Expr.Condition

/-!
Short-circuit conditions. A block that only tests a condition is absorbed into its one predecessor
when the two tests share a target.
-/
namespace JvmLift.Fold

def onFall (e₁ e₂ : Expr) (t₁ t₂ f₂ : BlockId) : Option Exit :=
  if t₂ = t₁ then some (.cond (.logical .or e₁ e₂) t₁ f₂)
  else if f₂ = t₁ then some (.cond (.logical .or e₁ e₂.negate) t₁ t₂)
  else none

def onTaken (e₁ e₂ : Expr) (f₁ t₂ f₂ : BlockId) : Option Exit :=
  if f₂ = f₁ then some (.cond (.logical .and e₁ e₂) t₂ f₁)
  else if t₂ = f₁ then some (.cond (.logical .and e₁ e₂.negate) f₂ f₁)
  else none

def predCount (blocks : List Block) (b : BlockId) : Nat := blocks.countP (·.succs.contains b)

/-- The test of a block that does nothing else and is entered from one place. -/
def bareTest? (blocks : List Block) (kept : List BlockId) (owner b : BlockId) : Option (Expr × BlockId × BlockId) :=
  if b = owner ∨ kept.contains b ∨ predCount blocks b ≠ 1 then none
  else
    match Block.find? blocks b with
    | some ⟨_, [], .cond e t f, _⟩ => some (e, t, f)
    | _ => none

/-- The block that `b₁` absorbs, with the new exit; the fall-through side is tried first. -/
def absorbed? (blocks : List Block) (kept : List BlockId) (b₁ : Block) : Option (BlockId × Exit) :=
  match b₁.exit, b₁.stack with
  | .cond e₁ t₁ f₁, [] =>
      let fall := do
        let (e₂, t₂, f₂) ← bareTest? blocks kept b₁.id f₁
        let exit ← onFall e₁ e₂ t₁ t₂ f₂
        return (f₁, exit)
      let taken := do
        let (e₂, t₂, f₂) ← bareTest? blocks kept b₁.id t₁
        let exit ← onTaken e₁ e₂ f₁ t₂ f₂
        return (t₁, exit)
      fall.or taken
  | _, _ => none

def candidate? (blocks : List Block) (kept : List BlockId) : Option (BlockId × BlockId × Exit) :=
  blocks.findSome? fun b => (absorbed? blocks kept b).map (b.id, ·)

def absorb (owner gone : BlockId) (exit : Exit) (blocks : List Block) : List Block :=
  (blocks.map fun b => if b.id = owner then { b with exit } else b).filter (·.id ≠ gone)

def run (kept : List BlockId) : Nat → List Block → List Block × Nat
  | 0, blocks => (blocks, 0)
  | n + 1, blocks =>
      match candidate? blocks kept with
      | none => (blocks, 0)
      | some (owner, gone, exit) =>
          let (blocks, count) := run kept n (absorb owner gone exit blocks)
          (blocks, count + 1)

end JvmLift.Fold

namespace JvmLift

/-- Folds conditions as long as possible and counts the absorbed blocks. Those in `kept` stay. -/
def foldConditions (blocks : List Block) (kept : List BlockId) : List Block × Nat :=
  Fold.run kept blocks.length blocks

end JvmLift
