import JvmLift.Proofs.Tree.Nodes
import JvmLift.Proofs.Walk.Stages

/-!
# What a walk gathers

A relation between the states of a walk and what is picked from the statements written in between holds of a whole
derivation if it adds up and holds of each piece.
-/
namespace JvmLift

open List

open JvmLift.Tree

/-- A region that is a lock has no clauses. -/
def Layout.PlainLocks (l : Layout) : Prop :=
  ∀ plan ∈ l.protection.plans, plan.shape.isSynchronized = true → plan.catches = []

namespace Walk

def HasCleanup (l : Layout) (f : Option FinallyPlan) : Prop :=
  ∀ f' ∈ f, ∃ plan ∈ l.protection.plans, plan.cleanup = some f'

variable {α : Type}

structure GathersTries (l : Layout) (pick : Tree → Option α) (R : State → State → List α → Prop) : Prop where
  locks : l.PlainLocks
  synchronized : ∀ e b, pick (.synchronized e b) = none
  simple : ∀ s, pick (.simple s) = none
  finalizer : ∀ s f, HasCleanup l (some f) → R s (s.visitCleanup f) []
  lock : ∀ s index plan, l.protection.plans[index]? = some plan → plan.catches = [] → R s (s.openTry index) []
  region : ∀ s index plan body clauses cleanup, l.protection.plans[index]? = some plan →
    clauses.map (·.1.types) = plan.catches.map (·.types) →
    R s (s.openTry index) (pick (.tryCatch plan.shape body clauses cleanup)).toList

structure GathersLoops (l : Layout) (pick : Tree → Option α) (R : State → State → List α → Prop) : Prop where
  whileLoop : ∀ e b, pick (.whileLoop e b) = none
  doWhile : ∀ e b, pick (.doWhile b e) = none
  header : ∀ s b info test inside follow, b ∉ s.visited → LoopAt l s b info →
    l.loopForm info = .guarded test inside follow → R s (s.visit b) (picked pick (labelOf l b))
  latch : ∀ s s1 b info latch test follow, LoopAt l s1 b info → l.loopForm info = .tested latch test follow →
    R s (s.visit latch) (picked pick (latchTrees l latch))

/-- A relation adds up, and holds of each piece that a walk writes. -/
structure Gathers (l : Layout) (pick : Tree → Option α) (R : State → State → List α → Prop) : Prop where
  linear : Linear pick
  trans : ∀ {s s1 s' new new'}, R s s1 new → R s1 s' new' → Grows s s1 → Grows s1 s' → R s s' (new ++ new')
  still : ∀ {s s'}, s'.visited = s.visited → s'.tries = s.tries → R s s' []
  goto : ∀ s b, b ∈ s.visited → R s (s.noteGoto b) (picked pick [.goto (blockLabel b)])
  block : ∀ s b block, b ∉ s.visited → l.block? b = some block → R s (s.visit b) (picked pick (blockTrees l b block))
  wrap : ∀ s s' label t, R s s' (picked pick [t]) → R s s' (picked pick [s'.wrap label t])
  loops : l.loops = [] ∨ GathersLoops l pick R
  tries : l.protection.plans = [] ∨ GathersTries l pick R

def Gathered (pick : Tree → Option α) (R : State → State → List α → Prop) (s s' : State) (out out' : List Tree) : Prop :=
  ∃ new, picked pick out' = picked pick out ++ new ∧ R s s' new

section

variable {l : Layout} {strict : Bool} {pick : Tree → Option α} {R : State → State → List α → Prop}
  {s s1 s' : State} {out out1 out' ts : List Tree} {new : List α} {b : BlockId}
  {clauses : List (Clause × List Tree)} {cleanup : Option (List Tree)}

theorem Gathered.behind (h : R s s' (picked pick ts)) : Gathered pick R s s' out (out ++ ts) :=
  ⟨_, picked_append out ts, h⟩

theorem Gathered.body (h : Gathered pick R s s' [] ts) : R s s' (picked pick ts) := by
  obtain ⟨new, hts, hnew⟩ := h
  rw [hts]
  exact hnew

theorem Clauses.types {scopes stop catches} (h : Clauses l strict scopes stop catches s clauses s') :
    clauses.map (·.1.types) = catches.map (·.types) := by
  induction catches generalizing s clauses with
  | nil => cases h; rfl
  | cons c rest ih =>
      cases h with
      | cons _ hc => simp [ih hc]

theorem Cleanup.picked_sync {scopes f} (h : Cleanup l strict scopes true f s cleanup s') :
    picked pick (cleanup.getD []) = [] := by
  cases h with
  | none => rfl
  | some hr =>
      rw [Bool.or_true] at hr
      cases hr
      rfl

namespace Gathers

variable (hg : Gathers l pick R)

include hg

theorem next (h : Gathered pick R s s1 out out1) (h' : Gathered pick R s1 s' out1 out') (hs : Grows s s1)
    (hs' : Grows s1 s') : Gathered pick R s s' out out' := by
  obtain ⟨new, hout, hnew⟩ := h
  obtain ⟨new', hout', hnew'⟩ := h'
  exact ⟨new ++ new', by rw [hout', hout, append_assoc], hg.trans hnew hnew' hs hs'⟩

theorem since (h : R s1 s' new) (hv : s1.visited = s.visited) (ht : s1.tries = s.tries) (hs : Grows s s1)
    (hs' : Grows s1 s') : R s s' new := hg.trans (hg.still hv ht) h hs hs'

theorem loopsAt {info} (hl : LoopAt l s b info) : GathersLoops l pick R :=
  hg.loops.resolve_left fun hnone => not_loopAt hnone hl

theorem behindBlock {block} (hv : b ∉ s.visited) (hb : l.block? b = some block) (h : R (s.visit b) s' (picked pick ts))
    (hs : Grows (s.visit b) s') : Gathered pick R s s' out (out ++ blockTrees l b block ++ ts) :=
  hg.next (.behind (hg.block s b block hv hb)) (.behind h) (.visit s b) hs

theorem tryTrees {plan index body s3} (ht : GathersTries l pick R) (hplan : l.protection.plans[index]? = some plan)
    (htypes : clauses.map (·.1.types) = plan.catches.map (·.types))
    (hsync : plan.shape.isSynchronized = true → picked pick (cleanup.getD []) = [])
    (h : R (s.openTry index) s3 (picked pick (body ++ clauses.flatMap (·.2) ++ cleanup.getD [])))
    (hs : Grows (s.openTry index) s3) :
    Gathered pick R s (s3.noteShape plan) out (tryTrees plan out body clauses cleanup) := by
  have hnote : (s3.noteShape plan).visited = s3.visited ∧ (s3.noteShape plan).tries = s3.tries := by
    unfold State.noteShape
    split <;> exact ⟨rfl, rfl⟩
  have hthen : ∀ {new}, R s (s.openTry index) new → R s (s3.noteShape plan)
      (new ++ picked pick (body ++ clauses.flatMap (·.2) ++ cleanup.getD [])) := fun hnew => by
    have hall := hg.trans (hg.trans hnew h (.openTry s index) hs) (hg.still hnote.1 hnote.2)
      ((Grows.openTry s index).trans hs) (.noteShape s3 plan)
    rwa [append_nil] at hall
  unfold Walk.tryTrees
  split
  · rename_i hlock
    have hnone := ht.locks plan (mem_of_getElem? hplan) hlock
    obtain rfl : clauses = [] := by simpa [hnone] using htypes
    refine ⟨_, ?_, hthen (ht.lock s index plan hplan hnone)⟩
    rw [picked_append, picked_takeLock ht.simple, picked_around rfl (ht.synchronized ..), nil_append,
      flatMap_nil, append_nil, picked_append, hsync hlock, append_nil]
  · refine ⟨_, ?_, hthen (ht.region s index plan body clauses cleanup hplan htypes)⟩
    rw [picked_append, picked_tryCatch]

end Gathers

mutual

theorem Region.gathers {scopes b stop entering out s out' reached s'}
    (hg : Gathers l pick R) (h : Region l strict scopes b stop entering out s out' reached s') :
    Gathered pick R s s' out out' := by
  match h with
  | .stop | .outside _ _ _ => exact ⟨[], (append_nil _).symm, hg.still rfl rfl⟩
  | .jump _ _ =>
      refine .behind ?_
      rw [picked_jump hg.linear]
      exact hg.still rfl rfl
  | .goto _ _ hv => exact .behind (hg.goto _ _ hv)
  | .skip _ _ hr => exact hr.gathers hg
  | .last ha _ _ hc => exact hc.gathers hg ha.fresh
  | .next ha _ _ hc hr => exact hg.next (hc.gathers hg ha.fresh) (hr.gathers hg) hc.grows hr.grows
termination_by structural h

theorem Construct.gathers {scopes b stop out s next out' s'}
    (hg : Gathers l pick R) (h : Construct l strict scopes b stop out s next out' s') (hv : b ∉ s.visited) :
    Gathered pick R s s' out out' := by
  match h with
  | .goes _ hb _ | .ends _ hb _ => exact .behind (hg.block _ _ _ hv hb)
  | .oneSided _ hb _ _ _ hr _ =>
      refine hg.behindBlock hv hb ?_ hr.grows
      rw [picked_ifThen hg.linear]
      exact (hr.gathers hg).body
  | .twoSided _ hb _ _ _ hr1 hr2 =>
      refine hg.behindBlock hv hb ?_ (hr1.grows.trans hr2.grows)
      rw [picked_ifBoth hg.linear]
      exact hg.trans (hr1.gathers hg).body (hr2.gathers hg).body hr1.grows hr2.grows
  | .switch _ hb _ _ ha =>
      refine hg.behindBlock hv hb (hg.wrap _ _ _ _ ?_) ((Grows.takeLabel _).trans ha.grows)
      rw [picked_switch hg.linear]
      exact hg.since (ha.gathers hg) rfl rfl (.takeLabel _) ha.grows
  | .guarded hl hf hr =>
      have hloop := hg.loopsAt hl
      have hopen := (Grows.openLoop (s.visit b) b).trans (.takeLabel _)
      refine hg.next (.behind (hloop.header _ _ _ _ _ _ hv hl hf)) (.behind (hg.wrap _ _ _ _ ?_)) (.visit _ _)
        (hopen.trans hr.grows)
      rw [picked_around rfl (hloop.whileLoop ..), picked_stripContinue hg.linear]
      exact hg.since (hr.gathers hg) rfl rfl hopen hr.grows
  | .tested hl hf hr _ =>
      have hloop := hg.loopsAt hl
      have hopen := (Grows.openLoop s b).trans (.takeLabel _)
      refine .behind (hg.wrap _ _ _ _ ?_)
      rw [picked_around rfl (hloop.doWhile ..), picked_stripContinue hg.linear, picked_append]
      exact hg.trans (hg.since (hr.gathers hg) rfl rfl hopen hr.grows) (hloop.latch _ _ _ _ _ _ _ hl hf)
        (hopen.trans hr.grows) (.visit _ _)
  | .endless hl _ hr =>
      refine .behind (hg.wrap _ _ _ _ ?_)
      rw [picked_around rfl ((hg.loopsAt hl).whileLoop ..), picked_stripContinue hg.linear]
      exact hg.since (hr.gathers hg).body rfl rfl ((Grows.openLoop s b).trans (.takeLabel _)) hr.grows
  | .guard ht _ hr hc hd =>
      rcases hg.tries with hnone | htries
      · exact (not_tryAt hnone ht).elim
      · have hplan := (pendingTry_some ht.pending).1
        have hparts := hg.trans (hg.trans (hr.gathers hg).body (hc.gathers hg htries) hr.grows hc.grows)
          (hd.gathers hg htries fun f hf => ⟨_, mem_of_getElem? hplan, hf⟩) (hr.grows.trans hc.grows) hd.grows
        rw [← picked_append, ← picked_append] at hparts
        exact hg.tryTrees htries hplan hc.types (fun hsync => (hsync ▸ hd).picked_sync)
          hparts ((hr.grows.trans hc.grows).trans hd.grows)
termination_by structural h

theorem Part.gathers {absent scopes b stop entering s body s'}
    (hg : Gathers l pick R) (h : Part l strict absent scopes b stop entering s body s') : R s s' (picked pick body) := by
  match h with
  | .absent => exact hg.still rfl rfl
  | .present hr => exact (hr.gathers hg).body
termination_by structural h

theorem Arms.gathers {scopes default cases follow entries s arms s'}
    (hg : Gathers l pick R) (h : Arms l strict scopes default cases follow entries s arms s') :
    R s s' (picked pick (arms.flatMap (·.2))) := by
  match h with
  | .nil => exact hg.still rfl rfl
  | .cons hr ha =>
      rw [flatMap_cons, picked_append]
      exact hg.trans (hr.gathers hg).body (ha.gathers hg) hr.grows ha.grows
termination_by structural h

theorem Clauses.gathers {scopes stop catches s clauses s'} (hg : Gathers l pick R)
    (h : Clauses l strict scopes stop catches s clauses s')
    (ht : GathersTries l pick R) : R s s' (picked pick (clauses.flatMap (·.2))) := by
  match h with
  | .nil => exact hg.still rfl rfl
  | .cons hr hc =>
      rw [flatMap_cons, picked_append, picked_takeCaught ht.simple]
      exact hg.trans (hr.gathers hg) (hc.gathers hg ht) hr.grows hc.grows
termination_by structural h

theorem Cleanup.gathers {scopes sync f s cleanup s'} (hg : Gathers l pick R)
    (h : Cleanup l strict scopes sync f s cleanup s')
    (ht : GathersTries l pick R) (hf : HasCleanup l f) : R s s' (picked pick (cleanup.getD [])) := by
  match h with
  | .none => exact hg.still rfl rfl
  | .some hr => exact hg.trans (ht.finalizer _ _ hf) (hr.gathers hg) (.visitCleanup _ _) hr.grows
termination_by structural h

end

end

end Walk

end JvmLift
