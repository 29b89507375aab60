import JvmLift.Structure.Walk
import JvmLift.Tree.Traverse

/-!
# What a walk writes, as a relation

`Region` and `Construct` say by rules what the walk writes, one for each thing that can happen at a block, so that a
property of everything written is proved by induction on a derivation. In a strict one, a side of a branch that is
written as ending does end, and no `continue` passes over the statements of a latch.
-/
namespace JvmLift

def Exit.onlyTarget? : Exit → Option BlockId
  | .fall t | .goto t => some t
  | .cond _ t f => if t = f then some t else none
  | _ => none

def Exit.isEnd : Exit → Bool
  | .leave | .throw | .ret => true
  | _ => false

namespace Walk

/-! ## Changes of the state -/

namespace State

def visit (s : State) (b : BlockId) : State := { s with visited := b :: s.visited }

def useLabel (s : State) (j : Jump) : State :=
  { s with usedLabels := j.label.toList ++ s.usedLabels }

def noteGoto (s : State) (b : BlockId) : State :=
  { s with
    gotos := b :: s.gotos
    approximate := true
    warnings := s.warnings ++ [s!"unstructured jump to offset {b}"] }

def takeLabel (s : State) : State := { s with labelCount := s.labelCount + 1 }

def openLoop (s : State) (h : BlockId) : State := { s with loops := h :: s.loops }

def openTry (s : State) (index : Nat) : State := { s with tries := index :: s.tries }

def noteShape (s : State) (plan : TryPlan) : State :=
  if plan.approximate then
    { s with
      approximate := true
      warnings := s.warnings ++ [s!"unrecognized handler shape for region at offset {plan.start}"] }
  else s

def wrap (s : State) (label : Nat) (t : Tree) : Tree :=
  if s.usedLabels.contains label then .labeled (labelName label) t else t

/-- The blocks of a finalizer that are not written on their own. -/
def visitCleanup (s : State) (f : FinallyPlan) : State :=
  match f.subroutine with
  | some r => ((s.visit f.handler).visit f.bodyStop).visit r.1
  | none => (s.visit f.handler).visit f.bodyStop

end State

def pendingLoop (l : Layout) (s : State) (b : BlockId) : Option Loop :=
  if s.loops.contains b then none else l.loop? b

/-! ## Forms of a branch -/

inductive Side where
  | taken
  | fall
  deriving DecidableEq, Repr

namespace Side

def test : Side → Expr → Expr
  | .taken, e => e
  | .fall, e => e.negate

def arm : Side → BlockId → BlockId → BlockId
  | .taken, t, _ => t
  | .fall, _, f => f

def rest : Side → BlockId → BlockId → BlockId
  | .taken, _, f => f
  | .fall, t, _ => t

end Side

/-- How a branch with two targets is written. With `ends`, the side inside the `if` is expected not to
come to its stop. With `meets`, both sides stop where they meet. -/
inductive BranchForm where
  | oneSided (side : Side) (stop : Option BlockId) (ends : Bool)
  | twoSided (stop : Option BlockId) (meets : Bool)
  deriving DecidableEq, Repr

/-- The side that is written inside the `if` when both end: the one that reaches less. -/
def smallerSide (l : Layout) (bounds : List BlockId) (taken fall : BlockId) : Side :=
  if l.terminates bounds fall && l.terminates bounds taken then
    if (l.reach bounds fall).size ≤ (l.reach bounds taken).size then .fall else .taken
  else if l.terminates bounds fall then .fall
  else .taken

def splitForm (l : Layout) (scopes : List Enclosing) (taken fall : BlockId) (stop : Option BlockId) : BranchForm :=
  let bounds := boundsOf scopes stop
  if l.terminates bounds fall || l.terminates bounds taken then
    .oneSided (smallerSide l bounds taken fall) stop true
  else .twoSided stop false

def mergeForm (l : Layout) (scopes : List Enclosing) (taken fall : BlockId) (stop : Option BlockId) : BranchForm :=
  match l.merge (boundsOf scopes stop) [taken, fall] with
  | some m =>
      if m = taken then .oneSided .fall (some m) false
      else if m = fall then .oneSided .taken (some m) false
      else .twoSided (some m) true
  | none => splitForm l scopes taken fall stop

/-- The form of a branch. A side that leaves an enclosing construct is only a jump. -/
def branchForm (l : Layout) (scopes : List Enclosing) (taken fall : BlockId) (stop : Option BlockId) : BranchForm :=
  if isBreakTarget scopes taken then .oneSided .taken none true
  else if isBreakTarget scopes fall then .oneSided .fall none true
  else mergeForm l scopes taken fall stop

/-! ## Rules -/

/-- The block is not the stop and not written yet, and no enclosing construct has a place there,
unless it is being entered. -/
structure Arrives (scopes : List Enclosing) (b : BlockId) (stop : Option BlockId) (entering : Bool)
    (s : State) : Prop where
  ne_stop : some b ≠ stop
  fresh : b ∉ s.visited
  no_jump : entering = false → findJump b true true scopes = none

/-- End of the code that is passed over at a block. -/
def skipPast? (l : Layout) (b : BlockId) : Option BlockId :=
  (l.protection.skipEnd? b).filter (b < ·)

/-- Neither a protected region nor a loop is to be written at the block. -/
structure Plain (l : Layout) (s : State) (b : BlockId) : Prop where
  no_try : l.pendingTry s.tries b = none
  no_loop : pendingLoop l s b = none

/-- The loop to be written at a block, which no protected region around it waits for. -/
structure LoopAt (l : Layout) (s : State) (b : BlockId) (info : Loop) : Prop where
  pending : pendingLoop l s b = some info
  uncovered : ∀ i plan, l.pendingTry s.tries b = some (i, plan) → info.body.all plan.contains = false

/-- The protected region to be written at a block, which covers the loop there. -/
structure TryAt (l : Layout) (s : State) (b : BlockId) (index : Nat) (plan : TryPlan) : Prop where
  pending : l.pendingTry s.tries b = some (index, plan)
  covers : ∀ info, pendingLoop l s b = some info → info.body.all plan.contains = true

def blockTrees (l : Layout) (b : BlockId) (block : Block) : List Tree :=
  labelOf l b ++ stmtsOf block

def latchTrees (l : Layout) (latch : BlockId) : List Tree :=
  ((l.block? latch).map stmtsOf).getD []

def followOf (l : Layout) (scopes : List Enclosing) (stop : Option BlockId) (default : BlockId)
    (cases : List (Int32 × BlockId)) : Option BlockId :=
  switchFollow l (boundsOf scopes stop) (sortedSet (cases.map (·.2) ++ [default])) default cases

def entriesOf (default : BlockId) (cases : List (Int32 × BlockId)) (follow : Option BlockId) : List BlockId :=
  (sortedSet (cases.map (·.2) ++ [default])).filter fun t => some t != follow

def tryTrees (plan : TryPlan) (out body : List Tree) (clauses : List (Clause × List Tree))
    (cleanup : Option (List Tree)) : List Tree :=
  if plan.shape.isSynchronized then
    (takeLock out plan.lockSlot).2 ++ [.synchronized (takeLock out plan.lockSlot).1 body]
  else out ++ [.tryCatch plan.shape body clauses cleanup]

mutual

/-- From a block on, until the stop or a jump: what was written before and then, and whether the walk
ended at the stop. -/
inductive Region (l : Layout) (strict : Bool) :
    List Enclosing → BlockId → Option BlockId → Bool → List Tree → State →
      List Tree → Bool → State → Prop where
  | stop {scopes b entering out s} : Region l strict scopes b (some b) entering out s out true s
  | jump {scopes b stop out s j} (hb : some b ≠ stop) (hj : findJump b true true scopes = some j) :
      Region l strict scopes b stop false out s (out ++ [j.tree]) false (s.useLabel j)
  | goto {scopes b stop out s} (hb : some b ≠ stop) (hj : findJump b true true scopes = none)
      (hv : b ∈ s.visited) :
      Region l strict scopes b stop false out s (out ++ [.goto (blockLabel b)]) false (s.noteGoto b)
  | skip {scopes b stop entering out s past out' reached s'} (ha : Arrives scopes b stop entering s)
      (hp : skipPast? l b = some past)
      (hr : Region l strict scopes past stop false out s out' reached s') :
      Region l strict scopes b stop entering out s out' reached s'
  | outside {scopes b stop entering out s} (ha : Arrives scopes b stop entering s)
      (hp : skipPast? l b = none) (hb : l.isBlock b = false) :
      Region l strict scopes b stop entering out s out false s
  | last {scopes b stop entering out s out' s'} (ha : Arrives scopes b stop entering s)
      (hp : skipPast? l b = none) (hb : l.isBlock b = true)
      (hc : Construct l strict scopes b stop out s none out' s') :
      Region l strict scopes b stop entering out s out' false s'
  | next {scopes b stop entering out s n out1 s1 out' reached s'}
      (ha : Arrives scopes b stop entering s) (hp : skipPast? l b = none) (hb : l.isBlock b = true)
      (hc : Construct l strict scopes b stop out s (some n) out1 s1)
      (hr : Region l strict scopes n stop false out1 s1 out' reached s') :
      Region l strict scopes b stop entering out s out' reached s'

inductive Construct (l : Layout) (strict : Bool) :
    List Enclosing → BlockId → Option BlockId → List Tree → State →
      Option BlockId → List Tree → State → Prop where
  | goes {scopes b stop out s block t} (hp : Plain l s b) (hb : l.block? b = some block)
      (ht : block.exit.onlyTarget? = some t) :
      Construct l strict scopes b stop out s (some t) (out ++ blockTrees l b block) (s.visit b)
  | ends {scopes b stop out s block} (hp : Plain l s b) (hb : l.block? b = some block)
      (he : block.exit.isEnd = true) :
      Construct l strict scopes b stop out s none (out ++ blockTrees l b block) (s.visit b)
  | oneSided {scopes b stop out s block e taken fall side armStop ends body reached s'}
      (hp : Plain l s b) (hb : l.block? b = some block) (he : block.exit = .cond e taken fall)
      (hne : taken ≠ fall)
      (hf : branchForm l scopes taken fall stop = .oneSided side armStop ends)
      (hr : Region l strict scopes (side.arm taken fall) armStop false [] (s.visit b) body reached s')
      (hs : strict = true → ends = true → reached = false) :
      Construct l strict scopes b stop out s (some (side.rest taken fall))
        (out ++ blockTrees l b block ++ [ifThen (side.test e) body]) s'
  | twoSided {scopes b stop out s block e taken fall armStop meets body1 reached1 s1 body2 reached2 s'}
      (hp : Plain l s b) (hb : l.block? b = some block) (he : block.exit = .cond e taken fall)
      (hne : taken ≠ fall)
      (hf : branchForm l scopes taken fall stop = .twoSided armStop meets)
      (hr1 : Region l strict scopes fall armStop false [] (s.visit b) body1 reached1 s1)
      (hr2 : Region l strict scopes taken armStop false [] s1 body2 reached2 s') :
      Construct l strict scopes b stop out s
        (if meets || reached1 || reached2 then armStop else none)
        (out ++ blockTrees l b block ++ [ifBoth e.negate body1 body2]) s'
  | switch {scopes b stop out s block key default cases follow arms s'}
      (hp : Plain l s b) (hb : l.block? b = some block)
      (he : block.exit = .switch key default cases)
      (hf : followOf l scopes stop default cases = follow)
      (ha : Arms l strict (⟨none, follow, s.labelCount + 1⟩ :: scopes) default cases follow
        (entriesOf default cases follow) (s.visit b).takeLabel arms s') :
      Construct l strict scopes b stop out s follow
        (out ++ blockTrees l b block ++ [s'.wrap (s.labelCount + 1) (.switch .int key arms)]) s'
  | guarded {scopes b stop out s info test inside follow body s'}
      (hl : LoopAt l s b info) (hf : l.loopForm info = .guarded test inside follow)
      (hr : Part l strict (inside == b) (⟨some b, some follow, s.labelCount + 1⟩ :: scopes) inside none
        false ((s.openLoop b).takeLabel.visit b) body s') :
      Construct l strict scopes b stop out s (some follow)
        (out ++ labelOf l b ++
          [s'.wrap (s.labelCount + 1) (.whileLoop test (Tree.stripContinue body))]) s'
  | tested {scopes b stop out s info latch test follow body s'}
      (hl : LoopAt l s b info) (hf : l.loopForm info = .tested latch test follow)
      (hr : Part l strict (latch == b) (⟨some latch, some follow, s.labelCount + 1⟩ :: scopes) b
        (some latch) true (s.openLoop b).takeLabel body s')
      (hs : strict = true → latchTrees l latch = [] ∨
        Tree.continuesIn (some (labelName (s.labelCount + 1))) false body = false) :
      Construct l strict scopes b stop out s (some follow)
        (out ++ [(s'.visit latch).wrap (s.labelCount + 1)
          (.doWhile (Tree.stripContinue (body ++ latchTrees l latch)) test)]) (s'.visit latch)
  | endless {scopes b stop out s info follow body reached s'}
      (hl : LoopAt l s b info) (hf : l.loopForm info = .endless follow)
      (hr : Region l strict (⟨some b, follow, s.labelCount + 1⟩ :: scopes) b none true []
        (s.openLoop b).takeLabel body reached s') :
      Construct l strict scopes b stop out s follow
        (out ++ [s'.wrap (s.labelCount + 1)
          (.whileLoop (.boolLit true) (Tree.stripContinue body))]) s'
  | guard {scopes b stop out s index plan follow body reached s1 clauses s2 cleanup s3}
      (ht : TryAt l s b index plan)
      (hf : l.tryFollow (index :: s.tries) (boundsOf scopes stop) plan = follow)
      (hr : Region l strict scopes plan.start (follow.or stop) true [] (s.openTry index) body reached s1)
      (hc : Clauses l strict scopes (follow.or stop) plan.catches s1 clauses s2)
      (hd : Cleanup l strict scopes plan.shape.isSynchronized plan.cleanup s2 cleanup s3) :
      Construct l strict scopes b stop out s (follow.or (if reached then stop else none))
        (tryTrees plan out body clauses cleanup) (s3.noteShape plan)

inductive Part (l : Layout) (strict : Bool) :
    Bool → List Enclosing → BlockId → Option BlockId → Bool → State → List Tree → State → Prop where
  | absent {scopes b stop entering s} : Part l strict true scopes b stop entering s [] s
  | present {scopes b stop entering s body reached s'}
      (hr : Region l strict scopes b stop entering [] s body reached s') :
      Part l strict false scopes b stop entering s body s'

inductive Arms (l : Layout) (strict : Bool) :
    List Enclosing → BlockId → List (Int32 × BlockId) → Option BlockId → List BlockId → State →
      List (Arm × List Tree) → State → Prop where
  | nil {scopes default cases follow s} : Arms l strict scopes default cases follow [] s [] s
  | cons {scopes default cases follow entry rest s body reached s1 arms s'}
      (hr : Region l strict scopes entry (rest.head?.or follow) false [] s body reached s1)
      (ha : Arms l strict scopes default cases follow rest s1 arms s') :
      Arms l strict scopes default cases follow (entry :: rest) s
        ((⟨(keysOf cases entry).map .int, entry == default, reached && !rest.isEmpty⟩, body) :: arms) s'

inductive Clauses (l : Layout) (strict : Bool) :
    List Enclosing → Option BlockId → List CatchPlan → State → List (Clause × List Tree) →
      State → Prop where
  | nil {scopes stop s} : Clauses l strict scopes stop [] s [] s
  | cons {scopes stop c rest s body s1 clauses s'}
      (hr : Part l strict (s.visited.contains c.handler) scopes c.handler stop false s body s1)
      (hc : Clauses l strict scopes stop rest s1 clauses s') :
      Clauses l strict scopes stop (c :: rest) s
        ((⟨c.types, (takeCaught c.types body).1⟩, (takeCaught c.types body).2) :: clauses) s'

inductive Cleanup (l : Layout) (strict : Bool) :
    List Enclosing → Bool → Option FinallyPlan → State → Option (List Tree) → State → Prop where
  | none {scopes sync s} : Cleanup l strict scopes sync none s none s
  | some {scopes sync f s body s'}
      (hr : Part l strict (f.bodyStart == f.bodyStop || sync) scopes f.bodyStart
        (Option.some f.bodyStop) false (s.visitCleanup f) body s') :
      Cleanup l strict scopes sync (Option.some f) s (Option.some body) s'

end

end Walk

end JvmLift
