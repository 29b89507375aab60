import JvmLift.Proofs.Meaning.Source

/-!
# What statements and blocks execute

An interpretation says what simple statements do to a state and when conditions hold. Structured statements are
executed by the actions that it gives; blocks are followed from exit to exit, at most a given number of them.
-/
namespace JvmLift

open Source (Actions Outcome execList)

universe u

structure Interpretation (σ : Type u) where
  run : Located → σ → σ
  holds : Expr → σ → Bool
  holds_compare : ∀ op l r x, holds (.compare op.negate l r) x = !holds (.compare op l r) x
  holds_not : ∀ e x, holds (.not e) x = !holds e x
  holds_boolLit : ∀ b x, holds (.boolLit b) x = b
  holds_and : ∀ l r x, holds (.logical .and l r) x = (holds l x && holds r x)
  holds_or : ∀ l r x, holds (.logical .or l r) x = (holds l x || holds r x)

/-- Statements that end the method return. Everything that an interpretation says nothing about throws, and nothing
is caught. -/
def Interpretation.actions {σ : Type u} (I : Interpretation σ) : Actions σ Unit where
  run s x := (if s.stmt.isTerminal then .returned none else .onward, I.run s x)
  declare _ _ x := (.error (), x)
  holds e x := (.ok (I.holds e x), x)
  value _ x := (.error (), x)
  selects _ _ _ := false
  catches _ _ := false
  caught _ _ x := x
  lock _ x := (.error (), x)
  unlock _ x := (.error (), x)
  iterate _ x := (.error (), x)
  next _ _ x := (.error (), x)

/-- The statement that is executed at a place in the sequence of all. -/
def Tree.Executes {σ : Type u} (I : Interpretation σ) (ts : List Tree) (x : σ) (i : Nat) (s : Located) : Prop :=
  Source.Executes I.actions ts x i s

def Tree.Halts {σ : Type u} (I : Interpretation σ) (ts : List Tree) (x y : σ) : Prop :=
  ∃ n, (execList I.actions n ts x).ending = .returned none ∧ (execList I.actions n ts x).state = y

/-! ## Blocks -/

/-- What was executed, the state after it, and the block that control has come to, if the method has
not ended. -/
structure Progress (σ : Type u) where
  trace : List Located
  state : σ
  position : Option BlockId

namespace Progress

variable {σ : Type u}

def behind (p : Progress σ) (trace : List Located) : Progress σ := { p with trace := trace ++ p.trace }

end Progress

section

variable {σ : Type u}

def Interpretation.runAll (I : Interpretation σ) : List Located → σ → Outcome σ Unit
  | [], x => .done x
  | s :: rest, x =>
      if s.stmt.isTerminal then ⟨[s], I.run s x, .returned none⟩ else (I.runAll rest (I.run s x)).behind [s]

/-- Where an exit leads that decides between two blocks at most. -/
def Exit.next? (I : Interpretation σ) (x : σ) : Exit → Option BlockId
  | .fall t | .goto t => some t
  | .cond e t f => some (if I.holds e x then t else f)
  | _ => none

end

namespace Block

variable {σ : Type u}

def step (I : Interpretation σ) (b : Block) (x : σ) : Progress σ :=
  let r := I.runAll b.stmts x
  ⟨r.trace, r.state, if r.ending.isNormal then b.exit.next? I r.state else none⟩

def follow (I : Interpretation σ) (blocks : List Block) : Nat → BlockId → σ → Progress σ
  | 0, b, x => ⟨[], x, some b⟩
  | k + 1, b, x =>
      match find? blocks b with
      | none => ⟨[], x, none⟩
      | some block =>
          let p := block.step I x
          match p.position with
          | none => p
          | some t => (follow I blocks k t p.state).behind p.trace

/-- The statement that is executed at a place in the sequence of all. -/
def Executes (I : Interpretation σ) (blocks : List Block) (b : BlockId) (x : σ) (i : Nat) (s : Located) : Prop :=
  ∃ k, (follow I blocks k b x).trace[i]? = some s

def Halts (I : Interpretation σ) (blocks : List Block) (b : BlockId) (x y : σ) : Prop :=
  ∃ k, (follow I blocks k b x).position = none ∧ (follow I blocks k b x).state = y

end Block

/-! ## Laws of conditions -/

section

variable {σ : Type u}

theorem Interpretation.holds_negate (I : Interpretation σ) (e : Expr) (x : σ) : I.holds e.negate x = !I.holds e x := by
  fun_induction Expr.negate e with
  | case1 op l r => exact I.holds_compare op l r x
  | case2 e => simp [I.holds_not]
  | case3 b => simp [I.holds_boolLit]
  | case4 op l r ihl ihr => cases op <;> simp [LogicalOp.dual, I.holds_and, I.holds_or, ihl, ihr]
  | case5 e => exact I.holds_not e x

end

/-! ## Laws of structured statements -/

namespace Interpretation

variable {σ : Type u} {I : Interpretation σ}

theorem simple_actions (s : Located) (x : σ) :
    I.actions.simple s x = ⟨[s], I.run s x, if s.stmt.isTerminal then .returned none else .normal⟩ := by
  dsimp only [Actions.simple, actions]
  cases s.stmt.isTerminal <;> rfl

theorem test_actions (e : Expr) (x : σ) : I.actions.test e x = ⟨[], x, if I.holds e x then .normal else .broke none⟩ :=
  rfl

theorem exec_ifElse {n : Nat} {own e t b} (x : σ) : Source.exec I.actions n own (.ifElse e t b) x =
      if I.holds e x then execList I.actions n t x else Source.execBlock I.actions n b x := by
  rw [Source.exec]
  rfl

theorem execList_map_simple {n : Nat} (stmts : List Located) (x : σ) :
    execList I.actions n (stmts.map .simple) x = I.runAll stmts x := by
  induction stmts generalizing x with
  | nil => rfl
  | cons s rest ih =>
      simp only [List.map_cons, execList, Source.exec, simple_actions, runAll]
      split
      · rfl
      · rw [Outcome.andThen_of_normal rfl, ih]

end Interpretation

/-! ## Laws of blocks -/

section

variable {σ : Type u} {I : Interpretation σ}

theorem Interpretation.ending_runAll (stmts : List Located) (x : σ) :
    (I.runAll stmts x).ending = .normal ∨ (I.runAll stmts x).ending = .returned none := by
  induction stmts generalizing x with
  | nil => exact .inl rfl
  | cons s rest ih =>
      rw [Interpretation.runAll]
      split
      · exact .inr rfl
      · exact ih _

theorem Interpretation.returned_runAll {stmts last}
    (hl : stmts.getLast? = some last) (ht : last.stmt.isTerminal = true) (x : σ) :
    (I.runAll stmts x).ending = .returned none := by
  induction stmts generalizing x with
  | nil => cases hl
  | cons s rest ih =>
      rw [Interpretation.runAll]
      split
      · rfl
      · cases rest with
        | nil =>
            obtain rfl : s = last := by simpa using hl
            contradiction
        | cons r rest => exact ih (by simpa using hl) _

variable {t : BlockId}

theorem Exit.next?_mem {exit : Exit} {x} (h : exit.next? I x = some t) : t ∈ exit.targets := by
  cases exit with
  | fall u | goto u => simpa [Exit.next?, Exit.targets, eq_comm] using h
  | cond e taken fall =>
      simp only [Exit.next?] at h
      simp only [Exit.targets]
      split at h <;> split <;> simp_all
  | switch | leave | throw | ret => cases h

end

namespace Block

variable {σ : Type u} {I : Interpretation σ} {blocks : List Block}

variable {block : Block} {x : σ}

theorem mem_succs_of_step (h : (block.step I x).position = some t) : t ∈ block.succs := by
  unfold step at h
  dsimp only at h
  split at h
  · exact Exit.next?_mem h
  · cases h

variable {b : BlockId}

section

variable (hb : find? blocks b = some block)

include hb

theorem follow_succ (k : Nat) (x : σ) : follow I blocks (k + 1) b x =
      match (block.step I x).position with
      | none => block.step I x
      | some t => (follow I blocks k t (block.step I x).state).behind (block.step I x).trace := by
  rw [follow, hb]

theorem follow_of_next? (hn : (I.runAll block.stmts x).ending = .normal)
    (ht : block.exit.next? I (I.runAll block.stmts x).state = some t) (k : Nat) : follow I blocks (k + 1) b x =
      (follow I blocks k t (I.runAll block.stmts x).state).behind (I.runAll block.stmts x).trace := by
  rw [follow_succ hb]
  simp [step, hn, ht, Source.Ending.isNormal]

theorem follow_of_returned (hn : (I.runAll block.stmts x).ending = .returned none) (k : Nat) :
    follow I blocks (k + 1) b x = ⟨(I.runAll block.stmts x).trace, (I.runAll block.stmts x).state, none⟩ := by
  rw [follow_succ hb]
  simp [step, hn, Source.Ending.isNormal]

end

variable {k m : Nat}

theorem follow_add (h : (follow I blocks k b x).position = some t) : follow I blocks (k + m) b x =
      (follow I blocks m t (follow I blocks k b x).state).behind (follow I blocks k b x).trace := by
  induction k generalizing b x with
  | zero =>
      obtain rfl : b = t := by simpa [follow] using h
      rw [Nat.zero_add]
      rfl
  | succ k ih =>
      rw [show k + 1 + m = k + m + 1 from Nat.add_right_comm k 1 m]
      simp only [follow] at h ⊢
      split at h
      · cases h
      · split at h
        · rename_i hn
          exact absurd (hn.symm.trans h) (by simp)
        · simp only [ih h]
          simp [Progress.behind]

theorem follow_of_none (h : (follow I blocks k b x).position = none) :
    follow I blocks (k + m) b x = follow I blocks k b x := by
  induction k generalizing b x with
  | zero => cases h
  | succ k ih =>
      rw [show k + 1 + m = k + m + 1 from Nat.add_right_comm k 1 m]
      simp only [follow] at h ⊢
      split at h
      · rfl
      · split at h
        · rfl
        · simp only [ih h]

theorem getElem?_follow (h : k ≤ m) {i : Nat} {s} (hs : (follow I blocks k b x).trace[i]? = some s) :
    (follow I blocks m b x).trace[i]? = some s := by
  obtain ⟨d, rfl⟩ := Nat.exists_eq_add_of_le h
  cases hp : (follow I blocks k b x).position with
  | none => rwa [follow_of_none hp]
  | some t =>
      obtain ⟨hi, -⟩ := List.getElem?_eq_some_iff.mp hs
      rw [follow_add hp, Progress.behind, List.getElem?_append_left hi]
      exact hs

end Block

end JvmLift
