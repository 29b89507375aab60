import JvmLift.Structure.Layout
import JvmLift.Tree.Basic

/-!
The walk that writes blocks as structured statements. Every construct is written at its entry, and
the walk goes on at its follow. Jumps to the follow or the head of an enclosing construct become
`break` and `continue`; what is left becomes a jump to a label.
-/
namespace JvmLift

/-- An enclosing construct that can be left; a loop also has a place to continue at. -/
structure Enclosing where
  continueTarget : Option BlockId
  follow : Option BlockId
  label : Nat
  deriving DecidableEq, Repr

namespace Walk

structure State where
  visited : List BlockId
  loops : List BlockId
  tries : List Nat
  usedLabels : List Nat
  gotos : List BlockId
  labelCount : Nat
  approximate : Bool
  warnings : List String
  deriving Repr

def State.initial : State := ⟨[], [], [], [], [], 0, false, []⟩

/-- Was a region entered that ends in front of its start? The walk breaks off there: it asks for the blocks between
the two. -/
def State.breaksOff (p : Protection) (s : State) : Bool :=
  s.tries.any fun i => p.plans[i]?.any (·.isInverted)

abbrev Walker := StateM State

/-- Writes a region, from the enclosing constructs, the first block, where to stop, whether the first
block is being entered, and what was written before. Tells whether the walk ended at the stop. -/
abbrev RegionWalk :=
  List Enclosing → BlockId → Option BlockId → Bool → List Tree → Walker (List Tree × Bool)

def labelName (n : Nat) : String := s!"label{n}"

def blockLabel (b : BlockId) : String := s!"L{b}"

/-! ### Jumps -/

structure Jump where
  isBreak : Bool
  label : Option Nat

/-- Searches outwards for a construct that a jump to `b` leaves or continues. The label is left out
while none of its kind lies in between. -/
def findJump (b : BlockId) : Bool → Bool → List Enclosing → Option Jump
  | _, _, [] => none
  | firstLoop, first, e :: rest =>
      if e.continueTarget = some b then some ⟨false, if firstLoop then none else some e.label⟩
      else if e.follow = some b then some ⟨true, if first then none else some e.label⟩
      else findJump b (firstLoop && e.continueTarget.isNone) false rest

def Jump.tree (j : Jump) : Tree :=
  if j.isBreak then .breakTo (j.label.map labelName) else .continueTo (j.label.map labelName)

def jumpTo (scopes : List Enclosing) (b : BlockId) : Walker (Option Tree) :=
  match findJump b true true scopes with
  | none => return none
  | some j => do
      modify fun s => { s with usedLabels := j.label.toList ++ s.usedLabels }
      return some j.tree

def gotoBlock (b : BlockId) : Walker Tree := do
  modify fun s =>
    { s with
      gotos := b :: s.gotos
      approximate := true
      warnings := s.warnings ++ [s!"unstructured jump to offset {b}"] }
  return .goto (blockLabel b)

def isBreakTarget (scopes : List Enclosing) (b : BlockId) : Bool :=
  scopes.any (·.follow == some b)

/-- Follows and heads of all enclosing constructs, and the stop. -/
def boundsOf (scopes : List Enclosing) (stop : Option BlockId) : List BlockId :=
  stop.toList ++ scopes.flatMap fun e => e.follow.toList ++ e.continueTarget.toList

def freshLabel : Walker Nat := do
  modify fun s => { s with labelCount := s.labelCount + 1 }
  return (← get).labelCount

def markVisited (b : BlockId) : Walker Unit := modify fun s => { s with visited := b :: s.visited }

def wrapLabel (label : Nat) (t : Tree) : Walker Tree := do
  let s ← get
  return if s.usedLabels.contains label then .labeled (labelName label) t else t

def labelOf (l : Layout) (b : BlockId) : List Tree :=
  if l.labels.contains b then [.label (blockLabel b)] else []

def stmtsOf (b : Block) : List Tree := b.stmts.map .simple

/-! ### Branches -/

def ifThen (e : Expr) (body : List Tree) : Tree := .ifElse e body none

def ifBoth (e : Expr) (thenBody elseBody : List Tree) : Tree :=
  if thenBody.isEmpty && !elseBody.isEmpty then ifThen e.negate elseBody
  else .ifElse e thenBody (if elseBody.isEmpty then none else some elseBody)

/-- A branch whose sides never meet: a side that ends is written inside the `if`. -/
def splitBranch (l : Layout) (walk : RegionWalk) (scopes : List Enclosing) (e : Expr)
    (taken fall : BlockId) (stop : Option BlockId) (out : List Tree) : Walker (Option BlockId × List Tree) := do
  let bounds := boundsOf scopes stop
  let fallEnds := l.terminates bounds fall
  let takenEnds := l.terminates bounds taken
  if fallEnds || takenEnds then
    let inlineFall :=
      if fallEnds && takenEnds then
        (l.reach bounds fall).size ≤ (l.reach bounds taken).size
      else fallEnds
    if inlineFall then
      let (body, _) ← walk scopes fall stop false []
      return (some taken, out ++ [ifThen e.negate body])
    else
      let (body, _) ← walk scopes taken stop false []
      return (some fall, out ++ [ifThen e body])
  else
    let (thenBody, a) ← walk scopes fall stop false []
    let (elseBody, b) ← walk scopes taken stop false []
    return (if a || b then stop else none, out ++ [ifBoth e.negate thenBody elseBody])

def mergeBranch (l : Layout) (walk : RegionWalk) (scopes : List Enclosing) (e : Expr)
    (taken fall : BlockId) (stop : Option BlockId) (out : List Tree) : Walker (Option BlockId × List Tree) :=
  match l.merge (boundsOf scopes stop) [taken, fall] with
  | some m =>
      if m = taken then do
        let (body, _) ← walk scopes fall (some m) false []
        return (some m, out ++ [ifThen e.negate body])
      else if m = fall then do
        let (body, _) ← walk scopes taken (some m) false []
        return (some m, out ++ [ifThen e body])
      else do
        let (thenBody, _) ← walk scopes fall (some m) false []
        let (elseBody, _) ← walk scopes taken (some m) false []
        return (some m, out ++ [ifBoth e.negate thenBody elseBody])
  | none => splitBranch l walk scopes e taken fall stop out

def breakSide (scopes : List Enclosing) (b : BlockId) : Walker (Option Tree) :=
  if isBreakTarget scopes b then jumpTo scopes b else return none

def branch (l : Layout) (walk : RegionWalk) (scopes : List Enclosing) (e : Expr)
    (taken fall : BlockId) (stop : Option BlockId) (out : List Tree) : Walker (Option BlockId × List Tree) := do
  if taken = fall then return (some taken, out)
  else
    match ← breakSide scopes taken with
    | some jump => return (some fall, out ++ [ifThen e [jump]])
    | none =>
        match ← breakSide scopes fall with
        | some jump => return (some taken, out ++ [ifThen e.negate [jump]])
        | none => mergeBranch l walk scopes e taken fall stop out

/-! ### Switches -/

def keysOf (cases : List (Int32 × BlockId)) (entry : BlockId) : List Int32 :=
  ((cases.filter (·.2 == entry)).map (·.1)).mergeSort fun a b => decide (a ≤ b)

/-- Writes the arms; each stops where the next one starts, the last one at the follow. -/
def switchArms (walk : RegionWalk) (scopes : List Enclosing) (default : BlockId)
    (cases : List (Int32 × BlockId)) (follow : Option BlockId) :
    List BlockId → Walker (List (Arm × List Tree))
  | [] => return []
  | entry :: rest => do
      let (body, reached) ← walk scopes entry (rest.head?.or follow) false []
      let arm : Arm := ⟨(keysOf cases entry).map .int, entry == default, reached && !rest.isEmpty⟩
      let arms ← switchArms walk scopes default cases follow rest
      return (arm, body) :: arms

/-- Where a switch goes on: where its arms meet, else at a default that no case shares. -/
def switchFollow (l : Layout) (bounds targets : List BlockId) (default : BlockId)
    (cases : List (Int32 × BlockId)) : Option BlockId :=
  (l.merge bounds targets).or (if cases.any (·.2 == default) then none else some default)

def switch (l : Layout) (walk : RegionWalk) (scopes : List Enclosing) (key : Expr)
    (default : BlockId) (cases : List (Int32 × BlockId)) (stop : Option BlockId)
    (out : List Tree) : Walker (Option BlockId × List Tree) := do
  let targets := sortedSet (cases.map (·.2) ++ [default])
  let follow := switchFollow l (boundsOf scopes stop) targets default cases
  let entries := targets.filter fun t => some t != follow
  let label ← freshLabel
  let arms ← switchArms walk (⟨none, follow, label⟩ :: scopes) default cases follow entries
  let t ← wrapLabel label (.switch .int key arms)
  return (follow, out ++ [t])

def node (l : Layout) (walk : RegionWalk) (scopes : List Enclosing) (b : BlockId)
    (stop : Option BlockId) (out : List Tree) : Walker (Option BlockId × List Tree) := do
  markVisited b
  match l.block? b with
  | none => return (none, out)
  | some block =>
      let out := out ++ labelOf l b ++ stmtsOf block
      match block.exit with
      | .fall t | .goto t => return (some t, out)
      | .leave | .throw | .ret => return (none, out)
      | .cond e taken fall => branch l walk scopes e taken fall stop out
      | .switch key default cases => switch l walk scopes key default cases stop out

/-! ### Loops -/

end Walk

mutual

/-- Removes a `continue` at the very end of a loop body, also at the end of a closing `if`. -/
def Tree.stripContinue : List Tree → List Tree
  | [] => []
  | t :: rest =>
      match rest with
      | [] => t.stripLast
      | u :: more => t :: Tree.stripContinue (u :: more)

def Tree.stripLast : Tree → List Tree
  | .continueTo none => []
  | .ifElse e t b => [.ifElse e (Tree.stripContinue t) (Tree.stripBlock b)]
  | t => [t]

def Tree.stripBlock : Option (List Tree) → Option (List Tree)
  | none => none
  | some ts => some (Tree.stripContinue ts)

end

namespace Walk

def loop (l : Layout) (walk : RegionWalk) (scopes : List Enclosing) (info : Loop)
    (out : List Tree) : Walker (Option BlockId × List Tree) := do
  let h := info.header
  modify fun s => { s with loops := h :: s.loops }
  let label ← freshLabel
  match l.loopForm info with
  | .guarded test inside follow =>
      markVisited h
      let (body, _) ←
        if inside = h then pure ([], false)
        else walk (⟨some h, some follow, label⟩ :: scopes) inside none false []
      let t ← wrapLabel label (.whileLoop test (Tree.stripContinue body))
      return (some follow, out ++ labelOf l h ++ [t])
  | .tested latch test follow =>
      let (body, _) ←
        if latch = h then pure ([], false)
        else walk (⟨some latch, some follow, label⟩ :: scopes) h (some latch) true []
      markVisited latch
      let last := ((l.block? latch).map stmtsOf).getD []
      let t ← wrapLabel label (.doWhile (Tree.stripContinue (body ++ last)) test)
      return (some follow, out ++ [t])
  | .endless follow =>
      let (body, _) ← walk (⟨some h, follow, label⟩ :: scopes) h none true []
      let t ← wrapLabel label (.whileLoop (.boolLit true) (Tree.stripContinue body))
      return (follow, out ++ [t])

/-! ### Protected regions -/

def throwableName : String := "java/lang/Throwable"

def replaceCaught (v : LocalVar) : Expr → Expr
  | .caught _ => .localVar v
  | e => e

def mapSimple (f : Expr → Expr) : Tree → Tree
  | .simple s => .simple (s.withStmt (s.stmt.mapNodes f))
  | t => t

/-- Takes the exception variable out of the first statement of a handler. A handler that drops the
exception gets a variable. -/
def takeCaught (types : List String) (body : List Tree) : LocalVar × List Tree :=
  match body with
  | .simple ⟨.store v (.caught _), _, _, _⟩ :: rest =>
      match types with
      | [one] => ({ v with ty := .reference one }, rest)
      | _ => (v, rest)
  | _ =>
      let name :=
        match types with
        | [one] => one
        | _ => throwableName
      let v : LocalVar := ⟨65535, some "ignored", .reference name, .temp⟩
      (v, body.map (mapSimple (replaceCaught v)))

def takeEnter (rev : List Tree) : Option Expr × List Tree :=
  match rev with
  | .simple ⟨.monitorEnter e, _, _, _⟩ :: rest => (some e, rest)
  | _ => (none, rev)

def sameLock (lock : Option Expr) (v : LocalVar) (value : Expr) : Bool :=
  match lock with
  | some (.localVar w) => w.same v
  | some e => e.eqv value
  | none => true

/-- Takes the statements that lock off the end of what was written, and gives the locked value. -/
def takeLock (out : List Tree) (slot : Option UInt16) : Expr × List Tree :=
  let (lock, rev) := takeEnter out.reverse
  let given := (lock.getD (.unresolved "monitor"), rev.reverse)
  match rev with
  | .simple ⟨.store v value, _, _, _⟩ :: rest =>
      if some v.index = slot ∧ v.origin = .slot ∧ sameLock lock v value then (value, rest.reverse)
      else given
  | _ => given

/-- Writes the catch clauses; a handler that was written elsewhere stays empty. -/
def catchClauses (walk : RegionWalk) (scopes : List Enclosing) (stop : Option BlockId) :
    List CatchPlan → Walker (List (Clause × List Tree))
  | [] => return []
  | c :: rest => do
      let s ← get
      let (body, _) ←
        if s.visited.contains c.handler then pure ([], false)
        else walk scopes c.handler stop false []
      let (v, body) := takeCaught c.types body
      let clauses ← catchClauses walk scopes stop rest
      return (⟨c.types, v⟩, body) :: clauses

def finalizer (walk : RegionWalk) (scopes : List Enclosing) (isSynchronized : Bool) :
    Option FinallyPlan → Walker (Option (List Tree))
  | none => return none
  | some f => do
      markVisited f.handler
      markVisited f.bodyStop
      match f.subroutine with
      | some r => markVisited r.1
      | none => pure ()
      let (body, _) ←
        if f.bodyStart = f.bodyStop ∨ isSynchronized then pure ([], false)
        else walk scopes f.bodyStart (some f.bodyStop) false []
      return some body

def noteShape (plan : TryPlan) : Walker Unit :=
  if plan.approximate then
    modify fun s =>
      { s with
        approximate := true
        warnings := s.warnings ++
          [s!"unrecognized handler shape for region at offset {plan.start}"] }
  else pure ()

def region (l : Layout) (walk : RegionWalk) (scopes : List Enclosing) (index : Nat)
    (plan : TryPlan) (stop : Option BlockId) (out : List Tree) : Walker (Option BlockId × List Tree) := do
  modify fun s => { s with tries := index :: s.tries }
  let s ← get
  let follow := l.tryFollow s.tries (boundsOf scopes stop) plan
  let bodyStop := follow.or stop
  let (body, reached) ← walk scopes plan.start bodyStop true []
  let clauses ← catchClauses walk scopes bodyStop plan.catches
  let cleanup ← finalizer walk scopes plan.shape.isSynchronized plan.cleanup
  noteShape plan
  let next := follow.or (if reached then stop else none)
  if plan.shape.isSynchronized then
    let (lock, out) := takeLock out plan.lockSlot
    return (next, out ++ [.synchronized lock body])
  else return (next, out ++ [.tryCatch plan.shape body clauses cleanup])

/-! ### Regions of blocks -/

/-- Writes what starts at a block: a protected region around a loop before the loop, and a loop
before the block itself. -/
def construct (l : Layout) (walk : RegionWalk) (scopes : List Enclosing) (b : BlockId)
    (stop : Option BlockId) (out : List Tree) : Walker (Option BlockId × List Tree) := do
  let s ← get
  let pendingLoop := if s.loops.contains b then none else l.loop? b
  match l.pendingTry s.tries b, pendingLoop with
  | some (i, plan), some info =>
      if info.body.all plan.contains then region l walk scopes i plan stop out
      else loop l walk scopes info out
  | some (i, plan), none => region l walk scopes i plan stop out
  | none, some info => loop l walk scopes info out
  | none, none => node l walk scopes b stop out

/-- The jump that ends a region in front of `b`, if `b` is a place of an enclosing construct or was
written before. -/
def endingJump (scopes : List Enclosing) (b : BlockId) : Walker (Option Tree) := do
  match ← jumpTo scopes b with
  | some jump => return some jump
  | none =>
      let s ← get
      if s.visited.contains b then some <$> gotoBlock b else return none

/-- Writes blocks from `b` on until the stop or a jump, in at most `n` stages of nesting and
following. -/
def blocksFrom (l : Layout) : Nat → RegionWalk
  | 0, _, _, _, _, out => return (out, false)
  | n + 1, scopes, b, stop, entering, out => do
      if some b = stop then return (out, true)
      else
        match ← if entering then pure none else endingJump scopes b with
        | some jump => return (out ++ [jump], false)
        | none =>
            let skipped := (l.protection.skipEnd? b).filter (b < ·)
            match skipped with
            | some past => blocksFrom l n scopes past stop false out
            | none =>
                if l.isBlock b then
                  match ← construct l (blocksFrom l n) scopes b stop out with
                  | (some next, out) => blocksFrom l n scopes next stop false out
                  | (none, out) => return (out, false)
                else return (out, false)

/-- Stages that are enough: every block, loop and region is written once, and skipped ranges are
passed in between. -/
def stages (l : Layout) : Nat :=
  (l.blocks.length + l.loops.length + l.protection.plans.length + 1) *
    (l.protection.skipped.length + 1) + 1

def run (l : Layout) (entry : BlockId) : List Tree × State :=
  if l.isBlock entry then
    let ((stmts, _), s) := (blocksFrom l (stages l) [] entry none false []).run .initial
    (stmts, s)
  else ([], .initial)

end Walk

end JvmLift
