import JvmLift.Proofs.Block.Settling

/-!
# What expressions and statements compute

Expressions are evaluated from left to right when their statement is executed, and operations on the heap are recorded
in a trace. An object comes to be when its constructor runs: until then it is a token named by the instruction that
allocated it.
-/
namespace JvmLift

open List

/-- What a variable or a stack entry holds: a value, or an object whose constructor has not run. -/
inductive Datum (V : Type) where
  | value (v : V)
  | fresh (className : String) (alloc : Nat)
  deriving DecidableEq, Repr

inductive Action where
  | fieldGet (owner name : String) (ty : ErasedType)
  | fieldPut (owner name : String) (ty : ErasedType)
  | call (kind : InvokeKind) (owner name descriptor : String)
  | dynamic (name descriptor : String) (bootstrap : UInt16)
  | construct (className descriptor : String)
  | newArray (ty : ErasedType)
  | arrayLength
  | arrayGet
  | arrayPut
  | monitorEnter
  | monitorExit
  deriving DecidableEq, Repr

def CmpOp.ofInts : CmpOp → Int32 → Int32 → Bool
  | .eq, a, b => a == b
  | .ne, a, b => a != b
  | .lt, a, b => a < b
  | .ge, a, b => b ≤ a
  | .gt, a, b => b < a
  | .le, a, b => a ≤ b

theorem CmpOp.ofInts_negate (op : CmpOp) (a b : Int32) : op.negate.ofInts a b = !op.ofInts a b := by
  cases op <;> simp only [negate, ofInts] <;> grind

theorem CmpOp.ofInts_order (op : CmpOp) (a b : Int32) :
    op.ofInts (if a < b then -1 else if a = b then 0 else 1) 0 = op.ofInts a b := by
  cases op <;> simp only [ofInts] <;> grind

/-- Values and operations on them. `order` is the result of a three-way comparison of operands that
are not unordered, as numbers are with one that is not a number. -/
structure Model (V H : Type) where
  int : Int32 → V
  long : Int64 → V
  float : Single → V
  double : Double → V
  string : String → V
  classOf : ErasedType → V
  null : V
  constant : String → V
  arith : ArithOp → Datum V → Datum V → V
  neg : Datum V → V
  convert : ErasedType → Datum V → V
  instanceOf : ErasedType → Datum V → Bool
  compare : CmpOp → Datum V → Datum V → Bool
  order : Datum V → Datum V → Int32
  unordered : Datum V → Datum V → Bool
  perform : Action → List (Datum V) → H → V × H
  compare_int : ∀ op a b, compare op (.value (int a)) (.value (int b)) = op.ofInts a b
  compare_eq : ∀ l r, compare .eq l r = !compare .ne l r
  compare_order : ∀ op l r, unordered l r = false →
    compare op (.value (int (order l r))) (.value (int 0)) = compare op l r

/-- The heap, and the operations on it so far with their operands. -/
structure World (V H : Type) where
  heap : H
  trace : List (Action × List (Datum V))

abbrev Place := VarOrigin × UInt16

def LocalVar.place (v : LocalVar) : Place := (v.origin, v.index)

/-- What variables and duplicates hold, and the receiver of the method. -/
structure Env (V : Type) where
  vars : Place → Datum V
  copies : Nat → Datum V
  self : Datum V

namespace Env

variable {V : Type}

def set (σ : Env V) (v : LocalVar) (d : Datum V) : Env V :=
  { σ with vars := fun p => if p = v.place then d else σ.vars p }

def copy (σ : Env V) (id : Nat) (d : Datum V) : Env V :=
  { σ with copies := fun n => if n = id then d else σ.copies n }

def slots (σ : Env V) (n : UInt16) : Datum V := σ.vars (.slot, n)

end Env

/-- Numeric types, to which a cast converts. Other casts only check. -/
def ErasedType.isNumeric : ErasedType → Bool
  | .int | .long | .float | .double | .byte | .char | .short | .boolean => true
  | _ => false

inductive Departure (V : Type) where
  | to (target : BlockId)
  | returned (value : Option (Datum V))
  | thrown (value : Datum V)
  deriving DecidableEq, Repr

namespace Model

variable {V H : Type} (M : Model V H)

def ofBool (b : Bool) : V := M.int (if b then 1 else 0)

def holds (d : Datum V) : Bool := M.compare .ne d (.value (M.int 0))

def castTo (t : ErasedType) (d : Datum V) : Datum V := if t.isNumeric then .value (M.convert t d) else d

def act (a : Action) (args : List (Datum V)) (w : World V H) : Datum V × World V H :=
  let (v, heap) := M.perform a args w.heap
  (.value v, ⟨heap, w.trace ++ [(a, args)]⟩)

def select (key : Datum V) (default : BlockId) (cases : List (Int32 × BlockId)) : BlockId :=
  ((cases.find? fun c => M.compare .eq key (.value (M.int c.1))).map (·.2)).getD default

/-! ## Expressions -/

mutual

def eval (σ : Env V) : Expr → World V H → Datum V × World V H
  | .intLit n, w => (.value (M.int n), w)
  | .longLit n, w => (.value (M.long n), w)
  | .floatLit x, w => (.value (M.float x), w)
  | .doubleLit x, w => (.value (M.double x), w)
  | .boolLit b, w => (.value (M.ofBool b), w)
  | .charLit c, w => (.value (M.int (Int32.ofNat c.toNat)), w)
  | .stringLit s, w => (.value (M.string s), w)
  | .classLit t, w => (.value (M.classOf t), w)
  | .nullLit, w => (.value M.null, w)
  | .thisRef, w => (σ.self, w)
  | .localVar v, w => (σ.vars v.place, w)
  | .caught name, w | .unresolved name, w => (.value (M.constant name), w)
  | .returnAddress, w => (.value M.null, w)
  | .dupLoad id, w => (σ.copies id, w)
  | .binary op _ l r, w =>
      let (a, w) := eval σ l w
      let (b, w) := eval σ r w
      (.value (M.arith op a b), w)
  | .neg e, w =>
      let (a, w) := eval σ e w
      (.value (M.neg a), w)
  | .not e, w =>
      let (a, w) := eval σ e w
      (.value (M.ofBool !M.holds a), w)
  | .logical op l r, w =>
      let (a, w) := eval σ l w
      -- the right side is evaluated if the left one does not decide
      if M.holds a = (op == .and) then
        let (b, w) := eval σ r w
        (.value (M.ofBool (M.holds b)), w)
      else (.value (M.ofBool (M.holds a)), w)
  | .compare op l r, w =>
      let (a, w) := eval σ l w
      let (b, w) := eval σ r w
      (.value (M.ofBool (M.compare op a b)), w)
  | .cmpResult l r, w =>
      let (a, w) := eval σ l w
      let (b, w) := eval σ r w
      (.value (M.int (M.order a b)), w)
  | .cast t e, w =>
      let (a, w) := eval σ e w
      (M.castTo t a, w)
  | .instanceOf e t, w =>
      let (a, w) := eval σ e w
      (.value (M.ofBool (M.instanceOf t a)), w)
  | .ternary c a b, w =>
      let (d, w) := eval σ c w
      if M.holds d then eval σ a w else eval σ b w
  | .fieldGet owner name t object, w =>
      let (args, w) := evalOption σ object w
      M.act (.fieldGet owner name t) args w
  | .call kind owner name d receiver args, w =>
      let (self, w) := evalOption σ receiver w
      let (args, w) := evalList σ args w
      M.act (.call kind owner name d) (self ++ args) w
  | .dynamic name d bootstrap args, w =>
      let (args, w) := evalList σ args w
      M.act (.dynamic name d bootstrap) args w
  | .new name d args, w =>
      let (args, w) := evalList σ args w
      M.act (.construct name d) args w
  | .uninitNew name alloc, w => (.fresh name alloc, w)
  | .newArray t dims, w =>
      let (args, w) := evalList σ dims w
      M.act (.newArray t) args w
  | .arrayLength e, w =>
      let (a, w) := eval σ e w
      M.act .arrayLength [a] w
  | .arrayLoad array index _, w =>
      let (a, w) := eval σ array w
      let (i, w) := eval σ index w
      M.act .arrayGet [a, i] w

def evalOption (σ : Env V) : Option Expr → World V H → List (Datum V) × World V H
  | none, w => ([], w)
  | some e, w =>
      let (d, w) := eval σ e w
      ([d], w)

def evalList (σ : Env V) : List Expr → World V H → List (Datum V) × World V H
  | [], w => ([], w)
  | e :: es, w =>
      let (d, w) := eval σ e w
      let (ds, w) := evalList σ es w
      (d :: ds, w)

end

end Model

/-! ## Statements -/

/-- What a statement evaluates; a duplicated value is evaluated where it is computed. -/
def Stmt.inputs (ds : Duplicates) : Stmt → List Expr
  | .dupStore id => (ds.get? id).toList
  | s => s.operands

structure Ran (V H : Type) where
  env : Env V
  world : World V H
  left : Option (Departure V)

/-- What a block leaves in the local slots and on the heap, and where control goes. -/
structure Result (V H : Type) where
  slots : UInt16 → Datum V
  world : World V H
  left : Option (Departure V)

namespace Model

variable {V H : Type} (M : Model V H)

/-- Executes a statement whose operands are evaluated. -/
def finish (σ : Env V) : Stmt → List (Datum V) → World V H → Ran V H
  | .store v _, [d], w => ⟨σ.set v d, w, none⟩
  | .fieldStore owner name t _ _, args, w => ⟨σ, (M.act (.fieldPut owner name t) args w).2, none⟩
  | .arrayStore .., args, w => ⟨σ, (M.act .arrayPut args w).2, none⟩
  | .increment v n, _, w =>
      ⟨σ.set v (.value (M.arith .add (σ.vars v.place) (.value (M.int n)))), w, none⟩
  | .leave _, args, w => ⟨σ, w, some (.returned args.head?)⟩
  | .throw _, [d], w => ⟨σ, w, some (.thrown d)⟩
  | .monitorEnter _, args, w => ⟨σ, (M.act .monitorEnter args w).2, none⟩
  | .monitorExit _, args, w => ⟨σ, (M.act .monitorExit args w).2, none⟩
  | .dupStore id, [d], w => ⟨σ.copy id d, w, none⟩
  | _, _, w => ⟨σ, w, none⟩

def exec (ds : Duplicates) (σ : Env V) (s : Stmt) (w : World V H) : Ran V H :=
  let (args, w) := M.evalList σ (s.inputs ds) w
  M.finish σ s args w

def execAll (ds : Duplicates) : Env V → List Located → World V H → Ran V H
  | σ, [], w => ⟨σ, w, none⟩
  | σ, s :: rest, w =>
      let r := M.exec ds σ s.stmt w
      match r.left with
      | some _ => r
      | none => execAll ds r.env rest r.world

def decide (σ : Env V) : Exit → World V H → Option (Departure V) × World V H
  | .fall t, w | .goto t, w => (some (.to t), w)
  | .cond e taken other, w =>
      let (d, w) := M.eval σ e w
      (some (.to (if M.holds d then taken else other)), w)
  | .switch e default cases, w =>
      let (key, w) := M.eval σ e w
      (some (.to (M.select key default cases)), w)
  | .leave, w | .throw, w | .ret, w => (none, w)

def conclude (r : Ran V H) (exit : Exit) : Result V H :=
  match r.left with
  | some d => ⟨r.env.slots, r.world, some d⟩
  | none =>
      let (d, w) := M.decide r.env exit r.world
      ⟨r.env.slots, w, d⟩

def execBlock (ds : Duplicates) (σ : Env V) (b : Block) (w : World V H) : Result V H :=
  M.conclude (M.execAll ds σ b.stmts w) b.exit

end Model

/-! ## Evaluation of calm expressions -/

variable {e : Expr}

namespace Expr

def acts : Expr → Bool
  | .fieldGet .. | .call .. | .dynamic .. | .new .. | .newArray .. | .arrayLength _ | .arrayLoad .. => true
  | _ => false

/-- Does evaluation leave the heap alone? -/
def isCalm (e : Expr) : Bool := e.nodes.all fun x => !x.acts

theorem mem_nodes_self (e : Expr) : e ∈ e.nodes := by cases e <;> simp [nodes]

theorem isCalm_of_acts (h : e.acts = true) : e.isCalm = false :=
  all_eq_false.mpr ⟨e, mem_nodes_self e, by simp [h]⟩

end Expr

def Stmt.isCalm (ds : Duplicates) : Stmt → Bool
  | .store _ e | .expr e => e.isCalm
  | .dupStore id => (ds.get? id).all Expr.isCalm
  | .increment .. => true
  | _ => false

namespace Model

variable {V H : Type} {M : Model V H} {σ : Env V}

theorem eval_of_calm : (e : Expr) → (∀ x ∈ e.nodes, x.acts = false) → ∃ d, ∀ w, M.eval σ e w = (d, w)
  | .intLit _, _ | .longLit _, _ | .floatLit _, _ | .doubleLit _, _ | .boolLit _, _ | .charLit _, _
  | .stringLit _, _ | .classLit _, _ | .nullLit, _ | .thisRef, _ | .localVar _, _ | .caught _, _
  | .returnAddress, _ | .dupLoad _, _ | .uninitNew .., _ | .unresolved _, _ => ⟨_, fun _ => rfl⟩
  | .neg e, h | .not e, h | .cast _ e, h | .instanceOf e _, h => by
      simp only [Expr.nodes, mem_cons, or_imp, forall_and] at h
      obtain ⟨d, hd⟩ := eval_of_calm e h.2
      simp only [eval, hd]
      exact ⟨_, fun _ => rfl⟩
  | .binary _ _ l r, h | .compare _ l r, h | .cmpResult l r, h => by
      simp only [Expr.nodes, mem_cons, mem_append, or_imp, forall_and] at h
      obtain ⟨a, ha⟩ := eval_of_calm l h.2.1
      obtain ⟨b, hb⟩ := eval_of_calm r h.2.2
      simp only [eval, ha, hb]
      exact ⟨_, fun _ => rfl⟩
  | .logical op l r, h => by
      simp only [Expr.nodes, mem_cons, mem_append, or_imp, forall_and] at h
      obtain ⟨a, ha⟩ := eval_of_calm l h.2.1
      obtain ⟨b, hb⟩ := eval_of_calm r h.2.2
      simp only [eval, ha, hb]
      split <;> exact ⟨_, fun _ => rfl⟩
  | .ternary c a b, h => by
      simp only [Expr.nodes, mem_cons, mem_append, or_imp, forall_and] at h
      obtain ⟨d, hd⟩ := eval_of_calm c h.2.1.1
      obtain ⟨x, hx⟩ := eval_of_calm a h.2.1.2
      obtain ⟨y, hy⟩ := eval_of_calm b h.2.2
      simp only [eval, hd, hx, hy]
      split <;> exact ⟨_, fun _ => rfl⟩
  | .fieldGet .., h | .call .., h | .dynamic .., h | .new .., h | .newArray .., h | .arrayLength _, h
  | .arrayLoad .., h => by
      simp [Expr.nodes, Expr.acts] at h

theorem eval_calm (h : e.isCalm = true) : ∃ d, ∀ w, M.eval σ e w = (d, w) :=
  eval_of_calm e (by simpa [Expr.isCalm] using h)

theorem evalList_calm {es} (h : es.all Expr.isCalm = true) : ∃ ds, ∀ w, M.evalList σ es w = (ds, w) := by
  induction es with
  | nil => exact ⟨[], fun _ => rfl⟩
  | cons e es ih =>
      simp only [all_cons, Bool.and_eq_true] at h
      obtain ⟨d, hd⟩ := eval_calm (M := M) (σ := σ) h.1
      obtain ⟨ds, hds⟩ := ih h.2
      exact ⟨d :: ds, fun w => by simp only [evalList, hd, hds]⟩

theorem evalList_append (xs ys : List Expr) (w : World V H) :
    M.evalList σ (xs ++ ys) w =
      let (a, w1) := M.evalList σ xs w
      let (b, w2) := M.evalList σ ys w1
      (a ++ b, w2) := by
  induction xs generalizing w with
  | nil => rfl
  | cons x xs ih => simp [evalList, ih]

theorem execAll_append (ds : Duplicates) (xs ys : List Located) (w : World V H) :
    M.execAll ds σ (xs ++ ys) w =
      let r := M.execAll ds σ xs w
      match r.left with
      | some _ => r
      | none => M.execAll ds r.env ys r.world := by
  induction xs generalizing σ w with
  | nil => rfl
  | cons x xs ih =>
      simp only [cons_append, execAll]
      cases hleft : (M.exec ds σ x.stmt w).left with
      | some d => simp only [hleft]
      | none => exact ih ..

/-! ## Replacing leaves -/

/-- The environments agree on what a leaf reads. -/
def SameLeaf (σ σ' : Env V) : Expr → Prop
  | .localVar v => σ'.vars v.place = σ.vars v.place
  | .dupLoad id => σ'.copies id = σ.copies id
  | _ => True

/-- The environments agree on what a leaf reads, or what stands for it gives the same. -/
def Replaces (M : Model V H) (g : Nat → Expr) (σ σ' : Env V) : Expr → Prop
  | .localVar v => σ'.vars v.place = σ.vars v.place
  | .dupLoad id => ∀ w, M.eval σ' (g id) w = (σ.copies id, w)
  | _ => True

section

variable {f : Expr → Expr} {g : Nat → Expr} {σ' : Env V}

theorem evalList_map {es} (h : ∀ e ∈ es, ∀ w, M.eval σ' (f e) w = M.eval σ e w) (w : World V H) :
    M.evalList σ' (es.map f) w = M.evalList σ es w := by
  induction es generalizing w with
  | nil => rfl
  | cons e es ih =>
      rw [forall_mem_cons] at h
      simp only [map_cons, evalList, h.1, ih h.2]

theorem evalOption_map {e} (h : ∀ x ∈ e, ∀ w, M.eval σ' (f x) w = M.eval σ x w) (w : World V H) :
    M.evalOption σ' (e.map f) w = M.evalOption σ e w := by
  cases e with
  | none => rfl
  | some x => simp only [Option.map_some, evalOption, h x rfl]

theorem eval_mapOperands (hself : σ'.self = σ.self) (hleaf : SameLeaf σ σ' e)
    (h : ∀ x ∈ e.operands, ∀ w, M.eval σ' (f x) w = M.eval σ x w) (w : World V H) :
    M.eval σ' (e.mapOperands f) w = M.eval σ e w := by
  cases e with
  | thisRef => exact congrArg (·, w) hself
  | localVar v => exact congrArg (·, w) hleaf
  | dupLoad id => exact congrArg (·, w) hleaf
  | fieldGet owner name t object =>
      simp only [Expr.mapOperands, eval, evalOption_map fun x hx => h x (Option.mem_toList.mpr hx)]
  | call kind owner name d receiver args =>
      simp only [Expr.operands, mem_append, or_imp, forall_and] at h
      simp only [Expr.mapOperands, eval, evalOption_map fun x hx => h.1 x (Option.mem_toList.mpr hx), evalList_map h.2]
  | dynamic _ _ _ args | new _ _ args | newArray _ args =>
      rw [Expr.operands] at h
      simp only [Expr.mapOperands, eval, evalList_map h]
  | _ =>
      simp only [Expr.operands, forall_mem_cons] at h
      simp only [Expr.mapOperands, eval, h]

theorem eval_fillLoad (hself : σ'.self = σ.self) (e : Expr) (h : ∀ x ∈ e.nodes, Replaces M g σ σ' x)
    (w : World V H) : M.eval σ' (e.mapNodes (Expr.fillLoad g)) w = M.eval σ e w := by
  induction e using Expr.operands_induction generalizing w with
  | step e ih =>
      have hown := h e (Expr.mem_nodes.mpr (.inl rfl))
      by_cases he : ∃ id, e = .dupLoad id
      · obtain ⟨id, rfl⟩ := he
        exact hown w
      · rw [Expr.mapNodes_fillLoad g he]
        refine eval_mapOperands hself ?_ (fun x hx w => ih x hx (fun y hy => h y ?_) w) w
        · cases e with
          | dupLoad id => exact absurd ⟨id, rfl⟩ he
          | localVar v => exact hown
          | _ => trivial
        · exact Expr.mem_nodes.mpr (.inr ⟨x, hx, hy⟩)

end

theorem eval_congr {σ'} (hself : σ'.self = σ.self)
    (h : ∀ x ∈ e.nodes, SameLeaf σ σ' x) (w : World V H) : M.eval σ' e w = M.eval σ e w := by
  -- both are the value of the expression with its own leaves put in their place
  have hleft : M.eval σ' (e.mapNodes (Expr.fillLoad .dupLoad)) w = M.eval σ' e w :=
    eval_fillLoad rfl e (fun x _ => by cases x <;> simp [Replaces, eval]) w
  have hright : M.eval σ' (e.mapNodes (Expr.fillLoad .dupLoad)) w = M.eval σ e w := by
    refine eval_fillLoad hself e (fun x hx => ?_) w
    have hx := h x hx
    cases x with
    | localVar v => exact hx
    | dupLoad id => exact fun w => congrArg (·, w) hx
    | _ => trivial
  exact hleft.symm.trans hright

/-! ## Literals in the type of their context -/

theorem charLit_toInt32 {n} (h0 : 0 ≤ n.toInt) (h1 : n.toInt ≤ 0xFFFF) :
    Int32.ofNat (UInt16.ofNat n.toInt.toNat).toNat = n := by
  have hlt : n.toInt.toNat < 2 ^ 16 := by omega
  rw [UInt16.toNat_ofNat_of_lt' hlt]
  apply Int32.toInt_inj.mp
  rw [Int32.toInt_ofNat_of_lt (by omega)]
  omega

theorem eval_retype (e : Expr) (t : ErasedType) (w : World V H) : M.eval σ (e.retype t) w = M.eval σ e w := by
  induction e using Expr.retype.induct t generalizing w with
  | case1 v h =>
      rw [Expr.retype, if_pos h, h.2]
      rfl
  | case2 v h0 h =>
      rw [Expr.retype, if_neg h0, if_pos h, h.2]
      rfl
  | case3 v h0 h1 h =>
      rw [Expr.retype, if_neg h0, if_neg h1, if_pos h]
      simp only [eval, charLit_toInt32 h.2.1 h.2.2]
  | case4 v h0 h1 h2 => rw [Expr.retype, if_neg h0, if_neg h1, if_neg h2]
  | case5 c a b h iha ihb =>
      rw [Expr.retype, if_pos h]
      simp only [eval, iha, ihb]
  | case6 c a b h => rw [Expr.retype, if_neg h]
  | case7 e h1 h2 => rw [Expr.retype.eq_3 _ _ h1 h2]

end Model

end JvmLift
