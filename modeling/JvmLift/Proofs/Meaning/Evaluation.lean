import JvmLift.Proofs.Meaning.Memory
import JvmLift.Proofs.Meaning.Related

/-!
# Statements over variables

What expressions give is left open, apart from a few that passes look for. They depend on no variable that they do not
name.
-/
namespace JvmLift.Source

open List

universe u v

variable {ν τ : Type u}

/-- What expressions give, and what other parts of statements do to the rest of the state. -/
structure Evaluation (ν τ : Type u) where
  int : Int32 → ν
  value : Expr → (Place → ν) → τ → Except ν ν × τ
  holds : Expr → (Place → ν) → τ → Except ν Bool × τ
  /-- Executes a statement that sets no variable. -/
  perform : Stmt → (Place → ν) → τ → Effect ν × τ
  increase : ν → Int32 → ν
  selects : SwitchKind → CaseLabel → ν → Bool
  catches : Clause → ν → Bool
  lock : ν → τ → Except ν Unit × τ
  unlock : ν → τ → Except ν Unit × τ
  iterate : ν → τ → Except ν ν × τ
  /-- The next element and the cursor behind it. -/
  next : ν → τ → Except ν (Option (ν × ν)) × τ
  value_congr : ∀ e : Expr, DependsOn e.vars (value e)
  holds_congr : ∀ e : Expr, DependsOn e.vars (holds e)
  perform_congr : ∀ s : Stmt, DependsOn (s.operands.flatMap Expr.vars) (perform s)
  value_intLit : ∀ k vars rest, value (.intLit k) vars rest = (.ok (int k), rest)
  value_localVar : ∀ v vars rest, value (.localVar v) vars rest = (.ok (vars v.place), rest)
  holds_compare : ∀ op v w vars rest a b, vars v.place = int a → vars w.place = int b →
    holds (.compare op (.localVar v) (.localVar w)) vars rest = (.ok (op.ofInts a b), rest)
  increase_int : ∀ a n, increase (int a) n = int (a + n)
  selects_int : ∀ k l, selects .int (.int k) (int l) = decide (k = l)

namespace Evaluation

variable (E : Evaluation ν τ)

def run (s : Stmt) (x : Memory ν τ) : Effect ν × Memory ν τ :=
  match s with
  | .store v e =>
      match x.assign v (E.value e x.vars) with
      | (.ok _, y) => (.onward, y)
      | (.error d, y) => (.threw d, y)
  | .increment v n => (.onward, x.set v (E.increase (x.vars v.place) n))
  | s => x.lift (E.perform s x.vars)

def next? (v : LocalVar) (cursor : ν) (x : Memory ν τ) : Except ν (Option ν) × Memory ν τ :=
  match E.next cursor x.rest with
  | (.ok (some (d, cursor)), rest) => (.ok (some cursor), { x with rest }.set v d)
  | (.ok none, rest) => (.ok none, { x with rest })
  | (.error d, rest) => (.error d, { x with rest })

def actions : Actions (Memory ν τ) ν where
  run s := E.run s.stmt
  declare v init x :=
    match init with
    | none => (.ok (), x)
    | some e => x.assign v (E.value e x.vars)
  holds e x := x.lift (E.holds e x.vars)
  value e x := x.lift (E.value e x.vars)
  selects := E.selects
  catches := E.catches
  caught c v x := x.set c.var v
  lock v x := x.lift (E.lock v)
  unlock v x := x.lift (E.unlock v)
  iterate v x := x.lift (E.iterate v)
  next := E.next?

variable {E} {x : Memory ν τ} {s : Located} {v : LocalVar} {e : Expr} {d : ν} {rest : τ}

theorem simple_store_ok (hs : s.stmt = .store v e) (h : E.value e x.vars x.rest = (.ok d, rest)) :
    E.actions.simple s x = ⟨[s], { x with rest }.set v d, .normal⟩ := by
  simp only [Actions.simple, actions, run, hs, Memory.assign, h]

theorem simple_store_error (hs : s.stmt = .store v e) (h : E.value e x.vars x.rest = (.error d, rest)) :
    E.actions.simple s x = ⟨[s], { x with rest }, .threw d⟩ := by
  simp only [Actions.simple, actions, run, hs, Memory.assign, h]

theorem simple_increment {n} (hs : s.stmt = .increment v n) :
    E.actions.simple s x = ⟨[s], x.set v (E.increase (x.vars v.place) n), .normal⟩ := by
  simp only [Actions.simple, actions, run, hs]

end Evaluation

/-! ## Names and places -/

variable {v w : LocalVar}

theorem place_eq_of_same (h : v.same w = true) : v.place = w.place := by
  simp only [LocalVar.same, Bool.and_eq_true, beq_iff_eq] at h
  exact Prod.ext h.1.1 h.1.2

theorem key_eq_of_place {N} (hN : Tree.OneName N) (hv : v.key ∈ N) (hw : w.key ∈ N)
    (h : v.place = w.place) : v.key = w.key := by
  have horigin : v.origin = w.origin := congrArg Prod.fst h
  have hindex : v.index = w.index := congrArg Prod.snd h
  have hname : v.name = w.name := hN _ hv _ hw horigin hindex
  simp [LocalVar.key, horigin, hindex, hname]

theorem place_ne_of_count {N ks} (hN : Tree.OneName N) (hks : ks ⊆ N) (hv : v.key ∈ ks)
    (hw : w.key ∈ N) (h : ks.count w.key = 0) : v.place ≠ w.place :=
  fun hp => count_eq_zero.mp h (key_eq_of_place hN (hks hv) hw hp ▸ hv)

/-! ## Variables that are not read -/

namespace Evaluation

variable {E : Evaluation ν τ} {K : Located → Prop} {P Q : List Place} {c : Place → ν}

theorem alike_value {e : Expr} (he : ∀ v ∈ e.vars, v.place ∉ P) : Alike (Memory.Agree P Q c) (E.actions.value e) :=
  fun _ _ h => h.lift (E.value_congr e _ _ (h.reads he))

theorem alike_holds {e : Expr} (he : ∀ v ∈ e.vars, v.place ∉ P) : Alike (Memory.Agree P Q c) (E.actions.holds e) :=
  fun _ _ h => h.lift (E.holds_congr e _ _ (h.reads he))

theorem alike_next (hv : v.place ∉ Q) (cursor : ν) : Alike (Memory.Agree P Q c) (E.actions.next v cursor) := by
  intro x y h
  simp only [actions, next?, h.rest]
  split
  · exact ⟨rfl, (h.withRest _).set hv fun _ => rfl⟩
  · exact ⟨rfl, h.withRest _⟩
  · exact ⟨rfl, h.withRest _⟩

theorem alike_declare {init : Option Expr} (hr : ∀ e ∈ init, ∀ v ∈ e.vars, v.place ∉ P)
    (hw : init.isSome → v.place ∉ Q) : Alike (Memory.Agree P Q c) (E.actions.declare v init) := by
  intro x y h
  cases init with
  | none => exact ⟨rfl, h⟩
  | some e => exact h.assign (hw rfl) (E.value_congr e _ _ (h.reads (hr e rfl)))

theorem alike_run {s : Stmt} (hr : ∀ e ∈ s.operands, ∀ v ∈ e.vars, v.place ∉ P)
    (hw : ∀ v ∈ s.written?, v.place ∉ Q) : Alike (Memory.Agree P Q c) (E.run s) := by
  intro x y h
  have hperform : E.perform s x.vars = E.perform s y.vars :=
    E.perform_congr s _ _ (h.reads (by simpa using fun v e he hv => hr e he v hv))
  cases s with
  | store v e =>
      obtain ⟨hv, hs⟩ := h.assign (hw v rfl) (E.value_congr e _ _ (h.reads (hr e (mem_singleton_self e))))
      simp only [run]
      generalize x.assign v (E.value e x.vars) = r at hv hs ⊢
      generalize y.assign v (E.value e y.vars) = q at hv hs ⊢
      obtain ⟨r, x'⟩ := r
      obtain ⟨q, y'⟩ := q
      cases hv
      cases r <;> exact ⟨rfl, hs⟩
  | increment v n => exact ⟨rfl, h.set (hw v rfl) fun hv => by rw [h.outside _ hv]⟩
  | _ => exact h.lift hperform

theorem respects {t} (hK : ∀ s, t = .simple s → K s) (hr : ∀ v ∈ t.ownReads, v.place ∉ P)
    (hw : ∀ v ∈ t.ownWrites, v.place ∉ Q) : E.actions.Respects K (Memory.Agree P Q c) t := by
  rw [Tree.ownReads_eq] at hr
  simp only [mem_flatMap, forall_exists_index, and_imp] at hr
  have hown : ∀ e ∈ t.ownExprs, ∀ v ∈ e.vars, v.place ∉ P := fun e he v hv => hr v e he hv
  cases t with
  | simple s => exact ⟨hK s rfl, alike_run hown fun v hv => hw v (by simpa using hv)⟩
  | declare v init line =>
      refine alike_declare (fun e he => hown e (by cases he; exact mem_singleton_self e)) fun hinit => ?_
      cases init with
      | none => cases hinit
      | some e => exact hw v (mem_singleton_self v)
  | ifElse e | whileLoop e | doWhile b e | forLoop i e => exact alike_holds (hown e (mem_singleton_self e))
  | forEach v e =>
      exact ⟨alike_value (hown e (mem_singleton_self e)), fun _ _ _ h => h.lift rfl,
        fun cursor => alike_next (hw v (mem_singleton_self v)) cursor⟩
  | switch k e => exact alike_value (hown e (mem_singleton_self e))
  | synchronized e =>
      exact ⟨alike_value (hown e (mem_singleton_self e)), fun _ _ _ h => h.lift rfl, fun _ _ _ h => h.lift rfl⟩
  | tryCatch shape b clauses =>
      exact fun clause hclause v x y h => h.set (hw clause.1.var (mem_map.mpr ⟨clause, hclause, rfl⟩)) fun _ => rfl
  | _ => trivial

/-! ## Two stores -/

variable {x : Memory ν τ} {v : LocalVar} {e : Expr} {rest : τ}

/-- Two stores in either order, one of them of an integer to a variable that the other one does not read. -/
theorem execList_either {a b i k t1 t2} (n : Nat)
    (h : t1 = .simple a ∧ t2 = .simple b ∨ t1 = .simple b ∧ t2 = .simple a) (ha : a.stmt = .store v e)
    (hb : b.stmt = .store i (.intLit k)) (hvi : v.place ≠ i.place) (he : ∀ u ∈ e.vars, u.place ≠ i.place)
    (hP : i.place ∈ P) {res} (hv : E.value e x.vars x.rest = (res, rest)) :
    let r := execList E.actions n [t1, t2] x
    (∀ s ∈ r.trace, s = a ∨ s = b) ∧
      ((∃ d, res = .ok d ∧ r.ending = .normal ∧ r.state = ({ x with rest }.set v d).set i (E.int k)) ∨
        ∃ d, res = .error d ∧ r.ending = .threw d ∧ r.state.Outside P { x with rest }) := by
  have hset (z : Memory ν τ) := E.simple_store_ok (x := z) hb (E.value_intLit k _ _)
  have hv' : E.value e (x.set i (E.int k)).vars (x.set i (E.int k)).rest = (res, rest) := by
    rw [← hv]
    exact congrFun (E.value_congr e _ _ fun u hu => Memory.set_vars_of_ne _ _ (he u hu)) _
  cases res with
  | ok d =>
      rcases h with ⟨rfl, rfl⟩ | ⟨rfl, rfl⟩
      · rw [execList_of_normal (E.simple_store_ok ha hv), execList_of_normal (hset _)]
        exact ⟨by simp [Outcome.behind, execList, Outcome.done], .inl ⟨d, rfl, rfl, rfl⟩⟩
      · rw [execList_of_normal (hset _), execList_of_normal (E.simple_store_ok ha hv')]
        exact ⟨by simp [Outcome.behind, execList, Outcome.done],
          .inl ⟨d, rfl, rfl, Memory.set_comm { x with rest } hvi.symm (E.int k) d⟩⟩
  | error d =>
      rcases h with ⟨rfl, rfl⟩ | ⟨rfl, rfl⟩
      · rw [execList_of_threw (E.simple_store_error ha hv)]
        exact ⟨by simp, .inr ⟨d, rfl, rfl, .refl _ _⟩⟩
      · rw [execList_of_normal (hset _), execList_of_threw (E.simple_store_error ha hv')]
        exact ⟨by simp [Outcome.behind], .inr ⟨d, rfl, rfl, ((Memory.Outside.refl _ x).set hP _).withRest rest⟩⟩

end Evaluation

/-! ## Integers, arrays of them, and texts -/

inductive Sample where
  | int (k : Int32)
  | ints (ks : List Int32)
  | text (s : String)
  | cursor (array : Sample) (i n : Int32)
  | fault
  deriving DecidableEq

namespace Sample

def length : Sample → Except Sample Int32
  | .ints ks => .ok (.ofNat ks.length)
  | _ => .error .fault

def element : Sample → Int32 → Except Sample Sample
  | .ints ks, i => .ok (.int (ks.getD i.toNatClampNeg 0))
  | _, _ => .error .fault

def add : Sample → Sample → Sample
  | .int a, .int b => .int (a + b)
  | _, _ => .fault

/-- A hash code that tells apart texts of different lengths only. -/
def hash : Sample → Sample
  | .text s => .int (.ofNat s.length)
  | _ => .fault

def compare (op : CmpOp) : Sample → Sample → Bool
  | .int a, .int b => op.ofInts a b
  | _, _ => false

def value (vars : Place → Sample) : Expr → Except Sample Sample
  | .intLit k => .ok (.int k)
  | .localVar v => .ok (vars v.place)
  | .binary .add _ (.localVar v) (.localVar w) => .ok ((vars v.place).add (vars w.place))
  | .arrayLength (.localVar v) => (vars v.place).length.map .int
  | .arrayLoad (.localVar v) (.localVar w) _ =>
      match vars w.place with
      | .int i => (vars v.place).element i
      | _ => .error .fault
  | .call _ _ "hashCode" _ (some (.localVar v)) [] => .ok (vars v.place).hash
  | _ => .error .fault

def holds (vars : Place → Sample) : Expr → Bool
  | .compare op (.localVar v) (.localVar w) => (vars v.place).compare op (vars w.place)
  | .call _ _ "equals" _ (some (.localVar v)) [.stringLit s] => vars v.place == .text s
  | _ => false

theorem value_congr (e : Expr) : DependsOn e.vars (value · e) := by
  intro vars vars' h
  unfold value
  split <;> simp_all

theorem holds_congr (e : Expr) : DependsOn e.vars (holds · e) := by
  intro vars vars' h
  unfold holds
  split <;> simp_all

end Sample

def sample : Evaluation Sample Unit where
  int := .int
  value e vars rest := (Sample.value vars e, rest)
  holds e vars rest := (.ok (Sample.holds vars e), rest)
  perform _ _ rest := (.onward, rest)
  increase v n := v.add (.int n)
  selects _ l v :=
    match l, v with
    | .int k, .int a => decide (k = a)
    | .string s, .text t => decide (s = t)
    | _, _ => false
  catches _ _ := false
  lock _ rest := (.ok (), rest)
  unlock _ rest := (.ok (), rest)
  iterate a rest := (a.length.map (.cursor a 0), rest)
  next c rest :=
    match c with
    | .cursor a i n => if i < n then ((a.element i).map fun d => some (d, .cursor a (i + 1) n), rest) else (.ok none, rest)
    | _ => (.error .fault, rest)
  value_congr e vars vars' h := by simp only [Sample.value_congr e vars vars' h]
  holds_congr e vars vars' h := by simp only [Sample.holds_congr e vars vars' h]
  perform_congr _ _ _ _ := rfl
  value_intLit _ _ _ := rfl
  value_localVar _ _ _ := rfl
  holds_compare op v w vars rest a b hv hw := by simp [Sample.holds, Sample.compare, hv, hw]
  increase_int _ _ := rfl
  selects_int _ _ := rfl

end JvmLift.Source
