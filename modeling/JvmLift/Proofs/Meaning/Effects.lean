import JvmLift.Proofs.Meaning.Execution

/-!
# Conditions with effects

Conditions may change the state or end the run. What is observed are the atomic conditions that are evaluated, the
keys switched on and the statements executed, in order. A comparison and its opposite are one atomic condition with
two answers.
-/
namespace JvmLift

universe u

inductive Observation where
  | tested (atom : Expr)
  | selected (key : Expr)
  | executed (s : Located)

/-- How a run ends: by an exit, at the name of no block, or where an effect ends it. -/
inductive Ending where
  | returned
  | thrown
  | retired
  | outside (b : BlockId)
  | raised
  deriving DecidableEq, Repr

/-- What was seen, the state after it, and what came out of it. -/
structure Observed (σ : Type u) (α : Type) where
  trace : List Observation
  state : σ
  result : Except Ending α

namespace Observed

variable {σ : Type u} {α β γ : Type}

def done (a : α) (x : σ) : Observed σ α := ⟨[], x, .ok a⟩

def ended (e : Ending) (x : σ) : Observed σ α := ⟨[], x, .error e⟩

def behind (r : Observed σ α) (trace : List Observation) : Observed σ α :=
  { r with trace := trace ++ r.trace }

def andThen (r : Observed σ α) (next : α → σ → Observed σ β) : Observed σ β :=
  match r.result with
  | .ok a => (next a r.state).behind r.trace
  | .error e => ⟨r.trace, r.state, .error e⟩

def map (f : α → β) (r : Observed σ α) : Observed σ β := ⟨r.trace, r.state, r.result.map f⟩

@[simp] theorem behind_nil (r : Observed σ α) : r.behind [] = r := rfl

@[simp] theorem done_andThen (a : α) (x : σ) (next : α → σ → Observed σ β) : (done a x).andThen next = next a x := rfl

@[simp] theorem ended_andThen (e : Ending) (x : σ) (next : α → σ → Observed σ β) :
    (ended e x).andThen next = ended e x := rfl

@[simp] theorem map_done (f : α → β) (a : α) (x : σ) : (done a x).map f = done (f a) x := rfl

@[simp] theorem trace_behind (r : Observed σ α) (t : List Observation) : (r.behind t).trace = t ++ r.trace := rfl

@[simp] theorem result_behind (r : Observed σ α) (t : List Observation) : (r.behind t).result = r.result := rfl

theorem andThen_of_ok {r : Observed σ α} {a} (h : r.result = .ok a) (next : α → σ → Observed σ β) :
    r.andThen next = (next a r.state).behind r.trace := by
  simp [andThen, h]

theorem andThen_of_error {r : Observed σ α} {e} (h : r.result = .error e)
    (next : α → σ → Observed σ β) : r.andThen next = ⟨r.trace, r.state, .error e⟩ := by
  simp [andThen, h]

theorem behind_andThen (r : Observed σ α) (t : List Observation) (next : α → σ → Observed σ β) :
    (r.behind t).andThen next = (r.andThen next).behind t := by
  cases h : r.result <;> simp [andThen, behind, h]

theorem andThen_assoc (r : Observed σ α) (f : α → σ → Observed σ β) (g : β → σ → Observed σ γ) :
    (r.andThen f).andThen g = r.andThen fun a x => (f a x).andThen g := by
  cases h : r.result with
  | ok a => rw [andThen_of_ok h, andThen_of_ok h, behind_andThen]
  | error e => rw [andThen_of_error h, andThen_of_error h, andThen_of_error rfl]

theorem map_eq_andThen (f : α → β) (r : Observed σ α) : r.map f = r.andThen fun a => done (f a) := by
  cases h : r.result <;> simp [map, andThen, done, behind, Except.map, h]

theorem map_map (f : α → β) (g : β → γ) (r : Observed σ α) : (r.map f).map g = r.map (g ∘ f) := by
  cases h : r.result <;> simp [map, Except.map, h]

theorem map_id (r : Observed σ α) : r.map id = r := by
  obtain ⟨t, x, _ | _⟩ := r <;> rfl

theorem map_andThen (f : α → β) (r : Observed σ α) (next : β → σ → Observed σ γ) :
    (r.map f).andThen next = r.andThen fun a => next (f a) := by
  simp only [map_eq_andThen, andThen_assoc, done_andThen]

theorem andThen_map (f : β → γ) (r : Observed σ α) (next : α → σ → Observed σ β) :
    (r.andThen next).map f = r.andThen fun a x => (next a x).map f := by
  simp only [map_eq_andThen, andThen_assoc]

/-- What was seen are some of these conditions, in their order. -/
def SeesOf (r : Observed σ α) (atoms : List Expr) : Prop :=
  ∃ seen : List Expr, seen.Sublist atoms ∧ r.trace = seen.map .tested

theorem SeesOf.andThen {r : Observed σ α} {next : α → σ → Observed σ β} {as bs} (h : r.SeesOf as)
    (hnext : ∀ a x, (next a x).SeesOf bs) : (r.andThen next).SeesOf (as ++ bs) := by
  obtain ⟨seen, hseen, htrace⟩ := h
  cases hr : r.result with
  | error e => exact ⟨seen, hseen.trans (List.sublist_append_left ..), by rw [andThen_of_error hr, htrace]⟩
  | ok a =>
      obtain ⟨seen', hseen', htrace'⟩ := hnext a r.state
      exact ⟨seen ++ seen', hseen.append hseen', by simp [andThen_of_ok hr, htrace, htrace']⟩

end Observed

/-! ## Conditions -/

def CmpOp.upright : CmpOp → CmpOp
  | .eq | .ne => .eq
  | .lt | .ge => .lt
  | .gt | .le => .gt

theorem CmpOp.upright_negate (op : CmpOp) : op.negate.upright = op.upright := by cases op <;> rfl

/-- A condition that is not put together from others, up to negation. -/
def Expr.upright : Expr → Expr
  | .compare op l r => .compare op.upright l r
  | e => e

/-- The atomic conditions of a condition, from left to right. -/
def Expr.atoms : Expr → List Expr
  | .boolLit _ => []
  | .not e => e.atoms
  | .logical _ l r => l.atoms ++ r.atoms
  | e => [e.upright]

theorem Expr.atoms_negate (e : Expr) : e.negate.atoms = e.atoms := by
  fun_induction negate e with
  | case1 op l r => simp [atoms, upright, CmpOp.upright_negate]
  | case4 op l r ihl ihr => simp [atoms, ihl, ihr]
  | _ => rfl

structure Effects (σ : Type u) where
  test : Expr → σ → Except Ending Bool × σ
  key : Expr → σ → Except Ending Int32 × σ
  run : Located → σ → Except Ending Unit × σ
  test_negate : ∀ op l r x,
    test (.compare op.negate l r) x = ((test (.compare op l r) x).1.map (!·), (test (.compare op l r) x).2)

namespace Effects

variable {σ : Type u} (I : Effects σ)

/-- Evaluates a condition; the right side of `&&` and `||` only where the left one does not decide. -/
def eval : Expr → σ → Observed σ Bool
  | .boolLit b, x => .done b x
  | .not e, x => (eval e x).map (!·)
  | .logical .and l r, x => (eval l x).andThen fun b y => if b then eval r y else .done false y
  | .logical .or l r, x => (eval l x).andThen fun b y => if b then .done true y else eval r y
  | e, x => ⟨[.tested e.upright], (I.test e x).2, (I.test e x).1⟩

theorem eval_negate (e : Expr) (x : σ) : I.eval e.negate x = (I.eval e x).map (!·) := by
  fun_induction Expr.negate e generalizing x with
  | case1 op l r => simp [eval, Observed.map, I.test_negate, Expr.upright, CmpOp.upright_negate]
  | case2 e =>
      have hid : ((!·) ∘ (!·) : Bool → Bool) = id := by
        funext b
        simp
      rw [eval, Observed.map_map, hid, Observed.map_id]
  | case3 b => rfl
  | case4 op l r ihl ihr =>
      cases op with
      | and =>
          simp only [LogicalOp.dual, eval, ihl, ihr, Observed.map_andThen, Observed.andThen_map]
          congr
          funext b y
          cases b <;> rfl
      | or =>
          simp only [LogicalOp.dual, eval, ihl, ihr, Observed.map_andThen, Observed.andThen_map]
          congr
          funext b y
          cases b <;> rfl
  | case5 e => rfl

theorem seesOf_eval (e : Expr) (x : σ) : (I.eval e x).SeesOf e.atoms := by
  fun_induction eval I e x with
  | case1 b x => exact ⟨[], .slnil, rfl⟩
  | case2 e x ih => exact ih
  | case3 l r x ihl ihr =>
      refine ihl.andThen fun b y => ?_
      cases b with
      | true => exact ihr y
      | false => exact ⟨[], List.nil_sublist _, rfl⟩
  | case4 l r x ihl ihr =>
      refine ihl.andThen fun b y => ?_
      cases b with
      | true => exact ⟨[], List.nil_sublist _, rfl⟩
      | false => exact ihr y
  | case5 e x h1 h2 h3 h4 =>
      have hatoms : e.atoms = [e.upright] := by
        refine Expr.atoms.eq_4 e h1 h2 fun op l r he => ?_
        cases op with
        | and => exact h3 l r he
        | or => exact h4 l r he
      exact ⟨[e.upright], hatoms ▸ .refl _, rfl⟩

/-- Negation is exact. A condition and its negation evaluate the same atomic conditions in the same order, whatever
these do, and leave the same state. They end the run in the same way, or give opposite answers. -/
theorem negate_opposes (e : Expr) (x : σ) :
    (I.eval e.negate x).trace = (I.eval e x).trace ∧ (I.eval e.negate x).state = (I.eval e x).state ∧
      (∀ b, (I.eval e.negate x).result = .ok b ↔ (I.eval e x).result = .ok (!b)) ∧
      (∀ ending, (I.eval e.negate x).result = .error ending ↔ (I.eval e x).result = .error ending) ∧
      e.negate.atoms = e.atoms ∧ (I.eval e x).SeesOf e.atoms := by
  rw [I.eval_negate]
  refine ⟨rfl, rfl, fun b => ?_, fun ending => ?_, e.atoms_negate, I.seesOf_eval e x⟩
  · cases h : (I.eval e x).result <;> simp [Observed.map, h, Except.map, Bool.not_eq_eq_eq_not]
  · cases h : (I.eval e x).result <;> simp [Observed.map, h, Except.map]

end Effects

/-! ## Blocks -/

def caseTarget (default : BlockId) (cases : List (Int32 × BlockId)) (v : Int32) : BlockId :=
  (cases.lookup v).getD default

namespace Effects

variable {σ : Type u} (I : Effects σ)

def runAll : List Located → σ → Observed σ Unit
  | [], x => .done () x
  | s :: rest, x => Observed.andThen ⟨[.executed s], (I.run s x).2, (I.run s x).1⟩ fun _ => runAll rest

def leave : Exit → σ → Observed σ BlockId
  | .fall t, x | .goto t, x => .done t x
  | .cond e t f, x => (I.eval e x).map fun b => if b then t else f
  | .switch key d cases, x => Observed.map (caseTarget d cases) ⟨[.selected key], (I.key key x).2, (I.key key x).1⟩
  | .leave, x => .ended .returned x
  | .throw, x => .ended .thrown x
  | .ret, x => .ended .retired x

def step (b : Block) (x : σ) : Observed σ BlockId := (I.runAll b.stmts x).andThen fun _ => I.leave b.exit

/-- Goes from block to block, through at most `k` of them, and gives the one that comes next. -/
def follow (blocks : List Block) : Nat → BlockId → σ → Observed σ BlockId
  | 0, b, x => .done b x
  | k + 1, b, x =>
      match Block.find? blocks b with
      | none => .ended (.outside b) x
      | some block => (I.step block x).andThen (follow blocks k)

/-- What is seen at a place in the sequence of all. -/
def Sees (blocks : List Block) (b : BlockId) (x : σ) (i : Nat) (o : Observation) : Prop :=
  ∃ k, (I.follow blocks k b x).trace[i]? = some o

def Ends (blocks : List Block) (b : BlockId) (x : σ) (e : Ending) (y : σ) : Prop :=
  ∃ k, (I.follow blocks k b x).result = .error e ∧ (I.follow blocks k b x).state = y

end Effects

end JvmLift
