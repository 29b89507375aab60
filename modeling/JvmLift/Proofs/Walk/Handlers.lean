import JvmLift.Proofs.Block.Names
import JvmLift.Proofs.Structure.Method
import JvmLift.Proofs.Walk.Coverage
import JvmLift.Proofs.Walk.Gathering
import JvmLift.Protection.Analysis

/-!
# A walk keeps its catch clauses

A protected region that is opened is written with all its clauses, unless it is a lock. A region is
opened when the walk comes to its start, and the walk comes to every block that it owes.
-/
namespace JvmLift

open List

open Relation (ReflTransGen)

namespace Tree

/-- The types that the clauses of a protected region catch. -/
def clauseTypes? : Tree → Option (List (List String))
  | .tryCatch _ _ clauses _ => some (clauses.map (·.1.types))
  | _ => none

def caught (ts : List Tree) : List (List (List String)) := picked clauseTypes? ts

end Tree

variable {ts : List Tree} {plan : TryPlan}

namespace Walk

/-! ## Regions that are opened are written -/

/-- What is caught shows the clauses of a region. -/
def Shown (l : Layout) (caught : List (List (List String))) (i : Nat) : Prop :=
  ∀ plan, l.protection.plans[i]? = some plan →
    plan.catches = [] ∨ plan.catches.map (·.types) ∈ caught

/-- Between two states, every region that was opened is shown. -/
def Shows (l : Layout) (s s' : State) (caught : List (List (List String))) : Prop :=
  ∀ i ∈ s'.tries, i ∈ s.tries ∨ Shown l caught i

section

variable {l : Layout} {s s' : State} {caught : List (List (List String))}

theorem Shows.refl (h : s'.tries = s.tries) : Shows l s s' caught := fun _ hi => .inl (h ▸ hi)

theorem Shows.openTry {index} (hplan : l.protection.plans[index]? = some plan)
    (h : plan.catches = [] ∨ plan.catches.map (·.types) ∈ caught) : Shows l s (s.openTry index) caught := by
  intro i hi
  rcases mem_cons.mp hi with rfl | hi
  · refine .inr fun plan' hplan' => ?_
    cases hplan.symm.trans hplan'
    exact h
  · exact .inl hi

theorem gathers_clauseTypes (hlocks : l.PlainLocks) : Gathers l Tree.clauseTypes? (Shows l) where
  linear := by constructor <;> intros <;> rfl
  trans h h' _ _ i hi := by
    rcases h' i hi with hi | hi
    · exact (h i hi).imp_right fun hs plan hp => (hs plan hp).imp_right (mem_append_left _)
    · exact .inr fun plan hp => (hi plan hp).imp_right (mem_append_right _)
  still _ ht := .refl ht
  goto _ _ _ := .refl rfl
  block _ _ _ _ _ := .refl rfl
  wrap _ _ _ _ h := by
    unfold State.wrap
    split <;> exact h
  loops := .inr ⟨fun _ _ => rfl, fun _ _ => rfl, fun _ _ _ _ _ _ _ _ _ => .refl rfl,
    fun _ _ _ _ _ _ _ _ _ => .refl rfl⟩
  tries := .inr {
    locks := hlocks
    synchronized := fun _ _ => rfl
    simple := fun _ => rfl
    finalizer := fun s f _ => .refl (by unfold State.visitCleanup; split <;> rfl)
    lock := fun _ _ _ hplan hnone => .openTry hplan (.inl hnone)
    region := fun _ _ _ _ _ _ hplan htypes => .openTry hplan (.inr (by simp [Tree.clauseTypes?, htypes])) }

end

/-! ## Regions that the walk comes to are opened -/

section

variable {l : Layout} {entry : BlockId}

theorem skipPast?_eq_none {b} (h : l.protection.isSkipped b = false) : skipPast? l b = none := by
  simp only [Protection.isSkipped, any_eq_false, Range.contains, Bool.and_eq_true,
    decide_eq_true_eq, not_and] at h
  unfold skipPast? Protection.skipEnd?
  rw [Option.filter_eq_none_iff]
  intro past hpast
  obtain ⟨r, hr, rfl⟩ := Option.map_eq_some_iff.mp hpast
  have hstart : r.1 = b := by simpa using find?_some hr
  simpa using h r (mem_of_find?_eq_some hr) (Nat.le_of_eq hstart)

theorem opened_run (hf : l.Fits) (hentry : l.isBlock entry = true) (hskip : skipPast? l entry = none)
    (happrox : (run l entry).2.approximate = false) (hplan : plan ∈ l.protection.plans)
    (hblock : l.isBlock plan.start = true) (hopens : l.Opens plan) (hturn : l.InTurn plan)
    (hpath : Block.ReachesBy l.blocks (fun x => ¬l.Stuck x) (fun y => skipPast? l y = none) entry plan.start) :
    ∃ i ∈ (run l entry).2.tries, l.protection.plans[i]? = some plan := by
  obtain ⟨_, h⟩ := run_region l entry hentry
  obtain ⟨W, hc, hW⟩ := h.covers hf
  have hlater : ∀ w, ¬Deferred [] none (run l entry).2 w := by
    rintro w (h | h | h)
    · cases h
    · simp [targetsOf] at h
    · exact absurd h.1 (by simp [happrox])
  have hreach : ∀ x, l.isBlock x = true →
      Block.ReachesBy l.blocks (fun x => ¬l.Stuck x) (fun y => skipPast? l y = none) entry x → W x := by
    intro x hx hr
    induction hr with
    | refl => exact (hW.deferred hentry hskip).resolve_right (hlater _)
    | @tail y z _ hstep ih =>
        obtain ⟨⟨hstuck, hz⟩, block, hblock, rfl, hsucc⟩ := hstep
        have hWy := ih (Layout.isBlock_iff.mpr ⟨block, hblock, rfl⟩)
        refine (hc.succs _ hWy hstuck z ?_ hz).resolve_right (hlater _)
        exact hf.mem_succs hblock hsucc hx
  exact hc.tries _ (hreach _ hblock hpath) plan hplan rfl hopens hturn

end

end Walk

/-! ## Structured methods -/

section

variable {cf : ControlFlow} {blocks : List Block} {p : Protection} {fold : Bool}

theorem Tree.exists_clause (h : plan.catches = [] ∨ plan.catches.map (·.types) ∈ Tree.caught ts) {c}
    (hc : c ∈ plan.catches) :
    ∃ shape body clauses cleanup, Tree.tryCatch shape body clauses cleanup ∈ Tree.nodesList ts ∧
      ∃ clause ∈ clauses, clause.1.types = c.types := by
  rcases h with h | h
  · simp [h] at hc
  · obtain ⟨t, ht, htypes⟩ := mem_filterMap.mp h
    match t, htypes with
    | .tryCatch shape body clauses cleanup, htypes =>
        refine ⟨shape, body, clauses, cleanup, ht, ?_⟩
        have hmem : c.types ∈ clauses.map (·.1.types) := by
          rw [Option.some.inj htypes]
          exact mem_map_of_mem hc
        exact mem_map.mp hmem

/-- No clause is dropped silently: unless jumps are left behind, a protected region that the entry
leads to is written with a clause for each of its handlers. -/
theorem tryCatch_mem_structureMethod (ctx : MethodContext) {asked : List String}
    (hsim : simulate ctx cf = .ok (blocks, asked)) (happrox : (structureMethod cf blocks p fold).approximate = false)
    (hlocks : (Structure.layout cf blocks p fold).PlainLocks)
    (hentry : cf.entry ∈ (Structure.folded cf blocks p fold).map (·.id)) {plan : TryPlan}
    (hplan : plan ∈ p.plans) (hstart : plan.start ∈ blocks.map (·.id))
    (hopens : (Structure.layout cf blocks p fold).Opens plan)
    (hturn : (Structure.layout cf blocks p fold).InTurn plan) (hskip : p.isSkipped cf.entry = false)
    (hpath : Block.ReachesBy blocks (fun x => ¬(Structure.layout cf blocks p fold).Stuck x)
      (fun y => p.isSkipped y = false) cf.entry plan.start) {c : CatchPlan} (hc : c ∈ plan.catches) :
    ∃ shape body clauses cleanup, Tree.tryCatch shape body clauses cleanup ∈
        Tree.nodesList (structureMethod cf blocks p fold).stmts ∧
      ∃ clause ∈ clauses, clause.1.types = c.types := by
  have hn := (simulate_ascending hsim).nodup
  rw [Structure.structureMethod_eq] at happrox ⊢
  let l : Layout := Structure.walked cf blocks p fold
  have hblock : ∀ x, x ∈ (Structure.folded cf blocks p fold).map (·.id) → l.isBlock x = true :=
    fun x hx => Layout.isBlock_iff.mpr (List.mem_map.mp hx)
  have hstart' := Structure.start_mem_folded cf fold hplan hstart
  have hpath' : Block.ReachesBy l.blocks (fun x => ¬l.Stuck x)
      (fun y => Walk.skipPast? l y = none) cf.entry plan.start :=
    ReflTransGen.mono (fun x y h => ⟨⟨h.1.1, Walk.skipPast?_eq_none h.1.2⟩, h.2⟩) _ _
      (Structure.reachesBy_folded hn hpath hentry hstart')
  obtain ⟨i, hi, hip⟩ := Walk.opened_run (l := l) (Structure.fits_layout hn _)
    (hblock _ hentry) (Walk.skipPast?_eq_none hskip) happrox hplan (hblock _ hstart') hopens hturn hpath'
  obtain ⟨_, hr⟩ := Walk.run_region l cf.entry (hblock _ hentry)
  have hlocks : l.PlainLocks := hlocks
  rcases (hr.gathers (Walk.gathers_clauseTypes hlocks)).body i hi with h | h
  · cases h
  · exact Tree.exists_clause (h plan hip) hc

end

namespace ProtectedLoop

/-- Counts down in a loop, and catches exceptions in its body. -/
def insideLoop : List Instruction :=
  [⟨0, 0x1a, 1, .load .int 0⟩, ⟨1, 0x99, 3, .ifZero .eq 14⟩, ⟨4, 0x84, 3, .increment 0 (-1)⟩,
    ⟨7, 0xa7, 3, .goto 0⟩, ⟨10, 0x4c, 1, .store .reference 1⟩, ⟨11, 0xa7, 3, .goto 0⟩,
    ⟨14, 0xb1, 1, .leave none⟩]

/-- A loop without a body, whose test alone is protected. -/
def onTest : List Instruction :=
  [⟨0, 0x1a, 1, .load .int 0⟩, ⟨1, 0x99, 3, .ifZero .eq 7⟩, ⟨4, 0xa7, 3, .goto 0⟩,
    ⟨7, 0xb1, 1, .leave none⟩, ⟨8, 0x4c, 1, .store .reference 1⟩, ⟨9, 0xb1, 1, .leave none⟩]

def context : MethodContext := ⟨⟨[]⟩, ⟨[]⟩, ⟨none, []⟩, .empty, true, .void⟩

variable (code : List Instruction) (edge : HandlerEdge)

def protection : Protection := .analyze code [edge]

def flow : ControlFlow := .build code [edge] (protection code edge).extraLeaders

def blocks : List Block := (simulate context (flow code edge)).toOption.elim [] (·.1)

def body : MethodBody :=
  structureMethod (flow code edge) (blocks code edge) (protection code edge) true

variable {code edge}

theorem simulate_eq (h : (simulate context (flow code edge)).toOption.any (·.2.isEmpty) = true) :
    simulate context (flow code edge) = .ok (blocks code edge, []) := by
  unfold blocks
  generalize simulate context (flow code edge) = x at h
  rcases x with _ | ⟨_, _ | _⟩
  · cases h
  · rfl
  · cases h

end ProtectedLoop

section

open ProtectedLoop

/-- The region inside the loop is written with its clause. -/
theorem tryCatch_mem_insideLoop : ∃ shape body' clauses cleanup, Tree.tryCatch shape body' clauses cleanup ∈
        Tree.nodesList (body insideLoop ⟨4, 7, 10, some "java/lang/Exception"⟩).stmts ∧
      ∃ clause ∈ clauses, clause.1.types = ["java/lang/Exception"] := by
  let edge : HandlerEdge := ⟨4, 7, 10, some "java/lang/Exception"⟩
  let plan : TryPlan := ⟨4, 7, .catchOnly, [⟨10, ["java/lang/Exception"]⟩], none, none, false⟩
  let l := Structure.layout (flow insideLoop edge) (blocks insideLoop edge)
    (protection insideLoop edge) true
  have hplans : (protection insideLoop edge).plans = [plan] := by decide +kernel
  have honly : ∀ q ∈ (protection insideLoop edge).plans, q = plan := by
    rw [hplans]
    simp
  have hloops : ∀ info ∈ l.loops, info.header ≠ 4 ∧ ∀ latch ∈ info.latches, latch ≠ 4 := by
    decide +kernel
  have hopens : l.Opens plan := by
    refine fun info hinfo => ⟨fun _ _ _ _ hh => absurd hh (hloops info hinfo).1, ?_⟩
    intro latch test follow hform hlatch
    obtain ⟨_, hlatches, -⟩ := Layout.loopForm_tested hform
    exact absurd hlatch ((hloops info hinfo).2 latch (by simp [hlatches]))
  have hpath : Block.ReachesBy (blocks insideLoop edge) (fun x => ¬l.Stuck x)
      (fun y => (protection insideLoop edge).isSkipped y = false) 0 4 := by
    refine .single ⟨⟨?_, by decide +kernel⟩, ?_⟩
    · rintro ⟨q, hq, hstart, -⟩
      rw [honly q hq] at hstart
      cases hstart
    · have : ∃ b ∈ blocks insideLoop edge, b.id = 0 ∧ 4 ∈ b.succs := by decide +kernel
      exact this
  exact tryCatch_mem_structureMethod context (simulate_eq (by decide +kernel)) (by decide +kernel)
    (fun q hq hsync => by rw [honly q hq] at hsync; cases hsync) (by decide +kernel)
    (hplans ▸ List.mem_singleton.mpr rfl) (by decide +kernel) hopens
    (fun q hq _ _ hne => absurd (honly q hq) hne) (by decide +kernel) hpath (List.mem_singleton.mpr rfl)

/-- A loop that is tested in front is written before a region at its header that does not contain
it, and the region is forgotten. -/
theorem clause_dropped_onTest :
    let edge : HandlerEdge := ⟨0, 4, 8, some "java/lang/Exception"⟩
    simulate context (flow onTest edge) = .ok (blocks onTest edge, []) ∧
      (∃ plan ∈ (protection onTest edge).plans,
        plan.start = (flow onTest edge).entry ∧ plan.catches ≠ []) ∧
      (body onTest edge).approximate = false ∧
      ∀ t ∈ Tree.nodesList (body onTest edge).stmts, Tree.clauseTypes? t = none := by
  refine ⟨simulate_eq (by decide +kernel), ?_, ?_, ?_⟩ <;> decide +kernel

end

end JvmLift
