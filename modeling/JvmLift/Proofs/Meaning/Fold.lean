import JvmLift.Proofs.Meaning.Agreement
import JvmLift.Proofs.Meaning.FoldEffects

/-!
# Folding conditions keeps what is executed

Conditions that only decide are conditions with effects that have none, so following the blocks that are left is
following the blocks there were, a few more at a time.
-/
namespace JvmLift

universe u

variable {σ : Type u} {I : Interpretation σ} {blocks blocks' : List Block} {b : BlockId}

/-! ## Conditions without effects -/

def Observation.statement? : Observation → Option Located
  | .executed s => some s
  | .tested _ | .selected _ => none

def Observed.progress (r : Observed σ BlockId) : Progress σ :=
  ⟨r.trace.filterMap Observation.statement?, r.state, r.result.toOption⟩

namespace Interpretation

/-- Conditions have no effects, and statements that end the method end the run. -/
def effects (I : Interpretation σ) : Effects σ where
  test e x := (.ok (I.holds e x), x)
  key _ x := (.error .raised, x)
  run s x := (if s.stmt.isTerminal then .error .raised else .ok (), I.run s x)
  test_negate op l r x := by simp [I.holds_compare, Except.map]

theorem eval_effects (e : Expr) (x : σ) :
    ∃ atoms : List Expr, I.effects.eval e x = ⟨atoms.map .tested, x, .ok (I.holds e x)⟩ := by
  fun_induction Effects.eval I.effects e x with
  | case1 b x => exact ⟨[], by simp [Observed.done, I.holds_boolLit]⟩
  | case2 e x ih =>
      obtain ⟨atoms, ih⟩ := ih
      exact ⟨atoms, by simp [ih, Observed.map, Except.map, I.holds_not]⟩
  | case3 l r x ihl ihr =>
      obtain ⟨as, ihl⟩ := ihl
      obtain ⟨bs, ihr⟩ := ihr x
      cases hl : I.holds l x with
      | true => exact ⟨as ++ bs, by simp [ihl, ihr, hl, Observed.andThen, Observed.behind, I.holds_and]⟩
      | false => exact ⟨as, by simp [ihl, hl, Observed.andThen, Observed.behind, Observed.done, I.holds_and]⟩
  | case4 l r x ihl ihr =>
      obtain ⟨as, ihl⟩ := ihl
      obtain ⟨bs, ihr⟩ := ihr x
      cases hl : I.holds l x with
      | true => exact ⟨as, by simp [ihl, hl, Observed.andThen, Observed.behind, Observed.done, I.holds_or]⟩
      | false => exact ⟨as ++ bs, by simp [ihl, ihr, hl, Observed.andThen, Observed.behind, I.holds_or]⟩
  | case5 e x => exact ⟨[e.upright], rfl⟩

theorem runAll_effects (stmts : List Located) (x : σ) :
    I.effects.runAll stmts x = ⟨(I.runAll stmts x).trace.map .executed, (I.runAll stmts x).state,
      if (I.runAll stmts x).ending.isNormal then .ok () else .error .raised⟩ := by
  induction stmts generalizing x with
  | nil => rfl
  | cons s rest ih =>
      have hrun : I.effects.run s x = (if s.stmt.isTerminal then .error .raised else .ok (), I.run s x) := rfl
      rw [Effects.runAll, runAll, hrun]
      cases s.stmt.isTerminal with
      | true => rfl
      | false => simp [Observed.andThen, Observed.behind, ih]

theorem leave_effects (exit : Exit) (x : σ) : ∃ seen, seen.filterMap Observation.statement? = [] ∧
    (I.effects.leave exit x).trace = seen ∧ (I.effects.leave exit x).state = x ∧
      (I.effects.leave exit x).result.toOption = exit.next? I x := by
  cases exit with
  | cond e t f =>
      obtain ⟨atoms, he⟩ := eval_effects (I := I) e x
      refine ⟨atoms.map .tested, ?_, ?_⟩
      · simp [Observation.statement?]
      · simp [Effects.leave, he, Observed.map, Except.map, Except.toOption, Exit.next?]
  | switch key d cases => exact ⟨[.selected key], rfl, rfl, rfl, rfl⟩
  | fall t | goto t | leave | throw | ret => exact ⟨[], rfl, rfl, rfl, rfl⟩

theorem step_effects (block : Block) (x : σ) : (I.effects.step block x).progress = block.step I x := by
  rw [Effects.step, runAll_effects, Block.step]
  split
  · obtain ⟨seen, hseen, htrace, hstate, hresult⟩ := leave_effects (I := I) block.exit (I.runAll block.stmts x).state
    simp [Observed.andThen, Observed.behind, Observed.progress, htrace, hseen, hstate, hresult,
      Function.comp_def, Observation.statement?]
  · simp [Observed.andThen, Observed.progress, Except.toOption, Function.comp_def,
      Observation.statement?]

theorem follow_effects (k : Nat) (b : BlockId) (x : σ) :
    (I.effects.follow blocks k b x).progress = Block.follow I blocks k b x := by
  induction k generalizing b x with
  | zero => rfl
  | succ k ih =>
      cases hb : Block.find? blocks b with
      | none => simp [Effects.follow, Block.follow, hb, Observed.ended, Observed.progress, Except.toOption]
      | some block =>
          rw [Effects.follow_succ hb, Block.follow_succ hb, ← step_effects]
          cases hr : (I.effects.step block x).result with
          | error e =>
              rw [Observed.andThen_of_error hr]
              simp [Observed.progress, hr, Except.toOption]
          | ok t =>
              rw [Observed.andThen_of_ok hr]
              simp [Observed.progress, Observed.behind, hr, Except.toOption, ← ih, Progress.behind]

end Interpretation

/-! ## Runs of blocks -/

def Block.RunsAs (I : Interpretation σ) (blocks' blocks : List Block) (b : BlockId) : Prop :=
  ∀ k x, ∃ k' ≥ k, Block.follow I blocks' k b x = Block.follow I blocks k' b x

namespace Block.RunsAs

theorem refl (blocks : List Block) (b : BlockId) : RunsAs I blocks blocks b :=
  fun k _ => ⟨k, Nat.le_refl k, rfl⟩

theorem executes_iff (h : RunsAs I blocks' blocks b) {x i s} :
    Executes I blocks' b x i s ↔ Executes I blocks b x i s :=
  Effects.exists_iff_of_longer (P := fun p => p.trace[i]? = some s) (fun k => h k x)
    fun k d => getElem?_follow (Nat.le_add_right k d)

theorem halts_iff (h : RunsAs I blocks' blocks b) {x y} : Halts I blocks' b x y ↔ Halts I blocks b x y := by
  refine Effects.exists_iff_of_longer (P := fun p => p.position = none ∧ p.state = y) (fun k => h k x) fun k d hk => ?_
  rwa [follow_of_none hk.1]

end Block.RunsAs

namespace Fold

variable {kept : List BlockId}

theorem runsAs_run (hn : (blocks.map (·.id)).Nodup) (n : Nat) (hb : b ∈ (run kept n blocks).1.map (·.id)) :
    Block.RunsAs I (run kept n blocks).1 blocks b := by
  intro k x
  obtain ⟨k', hle, heq⟩ := seenAs_run hn n hb k x
  refine ⟨k', hle, ?_⟩
  rw [← Interpretation.follow_effects, heq, Interpretation.follow_effects]

theorem Absorbs.sequential {b1 b2 exit} (h : Absorbs blocks kept b1 b2 exit)
    (hs : ∀ b ∈ blocks, b.Sequential) : ∀ c ∈ absorb b1.id b2.id exit blocks, c.Sequential := by
  intro c hc
  obtain ⟨-, b, hb, -, ⟨rfl, -⟩ | ⟨-, hexit⟩⟩ := mem_absorb hc
  · exact hs c hb
  · obtain ⟨e, t, f, rfl⟩ := h.exit_eq
    simp [Block.Sequential, hexit]

theorem sequential_run (hs : ∀ b ∈ blocks, b.Sequential) (n : Nat) : ∀ b ∈ (run kept n blocks).1, b.Sequential :=
  run_induction (fun _ _ _ _ h hs => h.sequential hs) n hs

end Fold

end JvmLift
