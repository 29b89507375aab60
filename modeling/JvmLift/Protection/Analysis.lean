import JvmLift.Flow.BasicBlock
import JvmLift.Protection.Plan

/-!
Classification of protected regions. Rows of the exception table are grouped by handler, handlers by
the extent they protect, and each extent is matched against the known layouts.
-/
namespace JvmLift.Protection

structure HandlerGroup where
  handler : BlockId
  types : List (Option String)
  ranges : List Range
  deriving DecidableEq, Repr

namespace HandlerGroup

def isCatchAll (h : HandlerGroup) : Bool := h.types.contains none

def namedTypes (h : HandlerGroup) : List String := h.types.filterMap id

def addRow (h : HandlerGroup) (e : HandlerEdge) : HandlerGroup :=
  { h with
    types := if h.types.contains e.catchType then h.types else h.types ++ [e.catchType]
    ranges := h.ranges ++ [(e.start, e.stop)] }

def addTo (e : HandlerEdge) : List HandlerGroup → List HandlerGroup
  | [] => [⟨e.handler, [e.catchType], [(e.start, e.stop)]⟩]
  | h :: rest => if h.handler = e.handler then h.addRow e :: rest else h :: addTo e rest

def ofEdges (edges : List HandlerEdge) : List HandlerGroup :=
  (edges.filter fun e => e.start < e.stop).foldl (fun hs e => addTo e hs) []

/-- The extent a handler protects. Ranges that start at a handler protect handler code and do not
count, unless there are no others. -/
def extent (handlers : List BlockId) (h : HandlerGroup) : Range :=
  let primary := h.ranges.filter fun r => !handlers.contains r.1
  let ranges := if primary.isEmpty then h.ranges else primary
  ((ranges.map (·.1)).min?.getD 0, (ranges.map (·.2)).max?.getD 0)

def toCatch (h : HandlerGroup) : CatchPlan := ⟨h.handler, h.namedTypes⟩

end HandlerGroup

/-! ### Looking at code -/

def codeFrom (code : List Instruction) (pc : Nat) : List Instruction :=
  code.dropWhile (·.offset != pc)

def instructionBefore? (pc : Nat) : List Instruction → Option Instruction
  | a :: b :: rest => if b.offset = pc then some a else instructionBefore? pc (b :: rest)
  | _ => none

def codeIn (code : List Instruction) (r : Range) : List Instruction :=
  code.filter fun i => r.contains i.offset

def refStore? (i : Instruction) : Option UInt16 :=
  match i.op with
  | .store .reference n => some n
  | _ => none

def isRefLoad (slot : UInt16) (i : Instruction) : Bool := i.op = .load .reference slot

/-- An operation without its slots and with distances for targets, so that copies of the same code
agree. -/
def shapeKey (i : Instruction) : Operation Int :=
  match i.op.mapTargets fun (t : Nat) => (t : Int) - i.offset with
  | .load k _ => .load k 0
  | .store k _ => .store k 0
  | .increment _ v => .increment 0 v
  | .ret _ => .ret 0
  | op => op

/-- Offset of the load and throw of `slot` that ends a handler in straight-line code. -/
def rethrowIn? (slot : UInt16) : List Instruction → Option Nat
  | a :: b :: rest =>
      if isRefLoad slot a && b.op = .throw then some a.offset
      else if a.op.endsFlow then none
      else rethrowIn? slot (b :: rest)
  | _ => none

/-- A handler that stores the exception, runs a body and throws it again: the slot, and the body. -/
def rethrowHandler? (code : List Instruction) (handler : Nat) : Option (UInt16 × Range) :=
  match codeFrom code handler with
  | store :: rest => do
      let slot ← refStore? store
      let rethrow ← rethrowIn? slot rest
      return (slot, (store.next, rethrow))
  | [] => none

structure Subroutine where
  body : Range
  whole : Range
  deriving DecidableEq, Repr

/-- The subroutine at an entry: it stores the return address and ends at the first return to it. -/
def subroutine? (code : List Instruction) (entry : Nat) : Option Subroutine :=
  match codeFrom code entry with
  | store :: rest => do
      let slot ← refStore? store
      let ret ← rest.find? (·.op = .ret slot)
      return ⟨(store.next, ret.offset), (entry, ret.next)⟩
  | [] => none

/-- A handler that only calls a subroutine and throws again: the slot and the entry. -/
def jsrHandler? (code : List Instruction) (handler : Nat) : Option (UInt16 × Nat) :=
  match codeFrom code handler with
  | store :: call :: load :: throw :: _ => do
      let slot ← refStore? store
      match call.op with
      | .jsr entry => if isRefLoad slot load && throw.op = .throw then some (slot, entry) else none
      | _ => none
  | _ => none

def unlockedSlot? : List Instruction → Option UInt16
  | [load, exit] =>
      match load.op with
      | .load .reference slot => if exit.op = .monitorExit then some slot else none
      | _ => none
  | _ => none

/-! ### Copies of a finalizer -/

/-- Does a window of code repeat the body, without claimed code, the handler, or a handler entry after
its first instruction? -/
def isCopy (key : List (Operation Int)) (handler : Nat) (handlers : List BlockId)
    (claimed : List Range) (window : List Instruction) : Bool :=
  window.map shapeKey = key &&
    window.all (fun i => !claimed.any (Range.contains · i.offset)) &&
    window.tail.all (fun i => !handlers.contains i.offset) &&
    (window.getLast?.map (·.next)).getD 0 ≤ handler

/-- Finds the copies of length `n` from left to right without overlap; `skip` instructions belong to
the copy just found. -/
def scanCopies (n : Nat) (matchesBody : List Instruction → Bool) :
    Nat → List Instruction → List Range
  | _, [] => []
  | skip + 1, _ :: rest => scanCopies n matchesBody skip rest
  | 0, i :: rest =>
      let window := (i :: rest).take n
      if window.length = n && matchesBody window then
        (i.offset, (window.getLast?.map (·.next)).getD i.next) :: scanCopies n matchesBody (n - 1) rest
      else scanCopies n matchesBody 0 rest

def findCopies (code : List Instruction) (body : List Instruction) (start handler : Nat)
    (handlers : List BlockId) (claimed : List Range) : List Range :=
  if body.isEmpty then []
  else
    scanCopies body.length (isCopy (body.map shapeKey) handler handlers claimed) 0
      (codeIn code (start, handler))

def returnsAfter (code : List Instruction) (copy : Range) : Bool :=
  let isLeave (i : Instruction) : Bool :=
    match i.op with
    | .leave _ => true
    | _ => false
  match codeFrom code copy.2 with
  | i :: rest =>
      match i.op with
      | .load .. => rest.head?.any isLeave
      | _ => isLeave i
  | [] => false

/-! ### Classification -/

structure Classified where
  plan : TryPlan
  claims : List Range

def unrecognized (extent : Range) (group : List HandlerGroup) : Classified :=
  ⟨⟨extent.1, extent.2, .unrecognized, group.map (·.toCatch), none, none, true⟩, []⟩

def classifyJsr (code : List Instruction) (extent : Range) (catches : List CatchPlan)
    (handler : Nat) (slot : UInt16) (sub : Subroutine) (afterMonitor : Bool) : Classified :=
  let lock := if afterMonitor then unlockedSlot? (codeIn code sub.body) else none
  let shape : TryShape :=
    if lock.isSome then .synchronizedJsr
    else if catches.isEmpty then .finallyJsr
    else .catchFinallyJsr
  ⟨⟨extent.1, extent.2, shape, catches,
      some ⟨handler, slot, sub.body.1, sub.body.2, [], some sub.whole⟩, lock, false⟩,
    [sub.whole]⟩

def classifyInlined (code : List Instruction) (extent : Range) (catches : List CatchPlan)
    (any : HandlerGroup) (slot : UInt16) (bodyRange : Range) (handlers : List BlockId)
    (claimed : List Range) (afterMonitor : Bool) : Classified :=
  let body := codeIn code bodyRange
  let copies := findCopies code body extent.1 any.handler handlers claimed
  let lock := if afterMonitor then unlockedSlot? body else none
  let protectsSelf := any.ranges.any (Range.contains · any.handler)
  let protectsCatches := any.ranges.any fun r => catches.any (·.handler == r.1)
  let shape : TryShape :=
    if lock.isSome then
      if protectsSelf then .synchronizedDoubleExit else .synchronizedSingleExit
    else if !catches.isEmpty then
      if protectsCatches then .catchFinallyNested else .catchFinallySibling
    else if body.isEmpty then .finallyEmpty
    else if copies.isEmpty then .finallyNoNormalExit
    else if copies.any (returnsAfter code) then .finallyReturnInTry
    else .finallyInlined
  ⟨⟨extent.1, extent.2, shape, catches,
      some ⟨any.handler, slot, bodyRange.1, bodyRange.2, copies, none⟩, lock, false⟩,
    copies⟩

def classify (code : List Instruction) (handlers : List BlockId) (claimed : List Range)
    (extent : Range) (group : List HandlerGroup) : Classified :=
  let catches := (group.filter (!·.isCatchAll)).map (·.toCatch)
  match group.filter (·.isCatchAll) with
  | [] =>
      let shape : TryShape := if catches.any (1 < ·.types.length) then .multiCatch else .catchOnly
      ⟨⟨extent.1, extent.2, shape, catches, none, none, false⟩, []⟩
  | [any] =>
      let afterMonitor := (instructionBefore? extent.1 code).any (·.op = .monitorEnter)
      match jsrHandler? code any.handler with
      | some (slot, entry) =>
          match subroutine? code entry with
          | some sub => classifyJsr code extent catches any.handler slot sub afterMonitor
          | none => unrecognized extent group
      | none =>
          match rethrowHandler? code any.handler with
          | some (slot, body) =>
              classifyInlined code extent catches any slot body handlers claimed afterMonitor
          | none => unrecognized extent group
  | _ => unrecognized extent group

/-- Regions with their handlers: smaller extents first, of equal size the later start first. -/
def regions (groups : List HandlerGroup) : List (Range × List HandlerGroup) :=
  let handlers := groups.map (·.handler)
  let extents := (groups.map (·.extent handlers)).eraseDups.mergeSort fun a b =>
    a.2 - a.1 < b.2 - b.1 || (a.2 - a.1 == b.2 - b.1 && b.1 ≤ a.1)
  extents.map fun e => (e, groups.filter fun g => g.extent handlers == e)

def planLeaders (p : TryPlan) : List Nat :=
  match p.cleanup with
  | some f =>
      [f.bodyStart, f.bodyStop] ++ f.copies.flatMap (fun (s, e) => [s, e]) ++
        f.subroutine.toList.flatMap fun (s, e) => [s, e]
  | none => []

/-- Classifies regions in order; code claimed by one is no copy for a later one. -/
def classifyAll (code : List Instruction) (handlers : List BlockId) :
    List Range → List (Range × List HandlerGroup) → List TryPlan × List Range
  | claimed, [] => ([], claimed)
  | claimed, (extent, group) :: rest =>
      let c := classify code handlers claimed extent group
      let (plans, claimed) := classifyAll code handlers (claimed ++ c.claims) rest
      (c.plan :: plans, claimed)

def analyze (code : List Instruction) (edges : List HandlerEdge) : Protection :=
  let groups := HandlerGroup.ofEdges edges
  let (plans, skipped) := classifyAll code (groups.map (·.handler)) [] (regions groups)
  ⟨plans, sortedSet (plans.flatMap planLeaders), skipped⟩

end JvmLift.Protection
