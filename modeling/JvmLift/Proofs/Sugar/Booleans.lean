import JvmLift.Proofs.Meaning.Moves
import JvmLift.Proofs.Tree.Relations
import JvmLift.Sugar.Values

/-!
# Truth values keep their values

Ternaries that choose between 0 and 1 become the condition they test, or its negation. What they give stays the same
in every model in which conditions of ternaries are 0 or 1.
-/
namespace JvmLift

open List

namespace Model

variable {V H : Type} (M : Model V H) (σ : Env V)

/-- The condition is 0 or 1, and so is what it negates. -/
def Truth : Expr → Prop
  | .not e => Truth e
  | e => ∀ w, ∃ b, (M.eval σ e w).1 = .value (M.ofBool b)

def Conditions (e : Expr) : Prop := ∀ c a b, .ternary c a b ∈ e.nodes → M.Truth σ c

variable {M σ}

theorem Truth.exists_eval {e} (h : M.Truth σ e) (w : World V H) : ∃ b, (M.eval σ e w).1 = .value (M.ofBool b) := by
  cases e with
  | not e => exact ⟨_, rfl⟩
  | _ => exact h w

theorem Truth.eval_eq {e} (h : M.Truth σ e) (w : World V H) :
    M.eval σ e w = (.value (M.ofBool (M.holds (M.eval σ e w).1)), (M.eval σ e w).2) := by
  obtain ⟨b, hb⟩ := h.exists_eval w
  rw [hb, holds_ofBool, ← hb]

theorem truth_of_eval {e e'} (hnot : ∀ x, e' ≠ .not x) (he : ∀ w, M.eval σ e' w = M.eval σ e w)
    (h : ∀ w, ∃ b, (M.eval σ e w).1 = .value (M.ofBool b)) : M.Truth σ e' := by
  cases e' with
  | not x => exact absurd rfl (hnot x)
  | _ => exact fun w => by rw [he w]; exact h w

/-! ## Negation -/

section

variable (hM : ∀ op l r, M.compare (CmpOp.negate op) l r = !M.compare op l r)

include hM

theorem holds_negate (e : Expr) (w : World V H) :
    M.holds (M.eval σ e.negate w).1 = (!M.holds (M.eval σ e w).1) ∧ (M.eval σ e.negate w).2 = (M.eval σ e w).2 := by
  cases e with
  | compare op l r => simp [Expr.negate, eval, hM]
  | logical op l r =>
      obtain ⟨hl, hl'⟩ := holds_negate l w
      obtain ⟨hr, hr'⟩ := holds_negate r (M.eval σ l w).2
      cases op <;> cases h : M.holds (M.eval σ l w).1 <;>
        simp [Expr.negate, eval, LogicalOp.dual, hl, hl', hr, hr', h]
  | _ => simp [Expr.negate, eval]

theorem eval_negate_of_truth {e} (h : M.Truth σ e.negate) (w : World V H) :
    M.eval σ e.negate w = (.value (M.ofBool !M.holds (M.eval σ e w).1), (M.eval σ e w).2) := by
  obtain ⟨hv, hw⟩ := holds_negate hM e w
  rw [h.eval_eq, hv, hw]

end

theorem Truth.negate {e} (h : M.Truth σ e) : M.Truth σ e.negate := by
  cases e with
  | not e => exact h
  | compare op l r | boolLit b => exact fun w => ⟨_, rfl⟩
  | logical op l r =>
      intro w
      simp only [Expr.negate, eval]
      split <;> exact ⟨_, rfl⟩
  | _ => exact h

theorem mem_nodes_negate {c a b e : Expr} (h : .ternary c a b ∈ e.negate.nodes) : .ternary c a b ∈ e.nodes := by
  cases e with
  | logical op l r =>
      simp only [Expr.negate, Expr.nodes, mem_cons, mem_append, reduceCtorEq, false_or] at h ⊢
      exact h.imp mem_nodes_negate mem_nodes_negate
  | compare op l r => simpa [Expr.negate, Expr.nodes] using h
  | not e => exact mem_cons_of_mem _ h
  | boolLit b => simp [Expr.negate, Expr.nodes] at h
  | _ => exact (mem_cons.mp h).resolve_left (by simp)

theorem Conditions.negate {e : Expr} (h : M.Conditions σ e) : M.Conditions σ e.negate :=
  fun c a b hm => h c a b (mem_nodes_negate hm)

theorem conditions_iff {e} :
    M.Conditions σ e ↔ (∀ c a b, e = .ternary c a b → M.Truth σ c) ∧ ∀ x ∈ e.operands, M.Conditions σ x := by
  simp only [Conditions, Expr.nodes_eq e, mem_cons, mem_flatMap, or_imp, forall_and, forall_exists_index,
    and_imp, eq_comm (b := e)]
  exact and_congr_right fun _ => ⟨fun h x hx c a b hm => h c a b x hx hm, fun h c a b x hx hm => h x hx c a b hm⟩

theorem conditions_ternary {c a b} :
    M.Conditions σ (.ternary c a b) ↔ M.Truth σ c ∧ M.Conditions σ c ∧ M.Conditions σ a ∧ M.Conditions σ b := by
  rw [conditions_iff]
  simp [Expr.operands]

end Model

namespace Sugar

open Model

variable {V H : Type} {M : Model V H} {σ : Env V}

/-! ## Ternaries -/

variable {e : Expr}

theorem eval_of_truth {b} (h : truth? e = some b) (w : World V H) : M.eval σ e w = (.value (M.ofBool b), w) := by
  unfold truth? at h
  split at h
  · rename_i n
    by_cases h1 : n = 1
    · cases h1
      cases h
      rfl
    · by_cases h0 : n = 0
      · cases h0
        cases h
        rfl
      · simp [h1, h0] at h
  · cases h
    rfl
  · cases h

theorem exists_eval_of_isBooleanValued : (e : Expr) → isBooleanValued e = true → ∀ w,
    ∃ b, (M.eval σ e w).1 = .value (M.ofBool b)
  | .ternary c a b, h, w => by
      simp only [isBooleanValued, Bool.and_eq_true] at h
      simp only [eval]
      split
      · exact exists_eval_of_isBooleanValued a h.1 _
      · exact exists_eval_of_isBooleanValued b h.2 _
  | .intLit n, h, w => by
      obtain ⟨b, hb⟩ := Option.isSome_iff_exists.mp h
      exact ⟨b, by rw [eval_of_truth hb]⟩
  | .boolLit b, _, _ => ⟨b, rfl⟩

section

variable (hM : ∀ op l r, M.compare (CmpOp.negate op) l r = !M.compare op l r)

include hM

theorem eval_toBoolean (e : Expr) (h : M.Conditions σ e) (w : World V H) : M.eval σ (toBoolean e) w = M.eval σ e w := by
  cases e with
  | ternary c a b =>
      obtain ⟨hc, -, ha, hb⟩ := conditions_ternary.mp h
      rw [toBoolean]
      split
      · rename_i hta htb
        rw [hc.eval_eq w, eval]
        simp only [eval_of_truth hta, eval_of_truth htb]
        cases M.holds (M.eval σ c w).1 <;> rfl
      · rename_i hta htb
        rw [eval_negate_of_truth hM hc.negate, eval]
        simp only [eval_of_truth hta, eval_of_truth htb]
        cases M.holds (M.eval σ c w).1 <;> rfl
      · simp only [eval, eval_toBoolean a ha, eval_toBoolean b hb]
  | _ => exact eval_retype _ _ _

end

theorem conditions_toBoolean (e : Expr) (h : M.Conditions σ e) : M.Conditions σ (toBoolean e) := by
  cases e with
  | ternary c a b =>
      obtain ⟨ht, hc, ha, hb⟩ := conditions_ternary.mp h
      rw [toBoolean]
      split
      · exact hc
      · exact hc.negate
      · exact conditions_ternary.mpr ⟨ht, hc, conditions_toBoolean a ha, conditions_toBoolean b hb⟩
  | intLit n =>
      intro c a b hm
      simp only [toBoolean, Expr.retype] at hm
      split at hm
      · simp [Expr.nodes] at hm
      · split at hm
        · simp [Expr.nodes] at hm
        · split at hm <;> simp [Expr.nodes] at hm
  | _ => exact h

theorem truth_toBoolean (hM : ∀ op l r, M.compare (CmpOp.negate op) l r = !M.compare op l r)
    (ht : isTernary e = true) (he : isBooleanValued e = true) (h : M.Conditions σ e) : M.Truth σ (toBoolean e) := by
  cases e with
  | ternary c a b =>
      have heval := eval_toBoolean hM _ h
      obtain ⟨hc, -, -, -⟩ := conditions_ternary.mp h
      rw [toBoolean] at heval ⊢
      split at heval
      · exact hc
      · exact hc.negate
      · exact truth_of_eval (by simp) heval (exists_eval_of_isBooleanValued _ he)
  | _ => cases ht

/-! ## Operands -/

/-- An expression in place of another one: it gives the same, and it stays a truth value. -/
structure Keeps (M : Model V H) (σ : Env V) (e e' : Expr) : Prop where
  eval : ∀ w, M.eval σ e' w = M.eval σ e w
  truth : M.Truth σ e → M.Truth σ e'
  conditions : M.Conditions σ e'

structure KeepsAll (M : Model V H) (σ : Env V) (es es' : List Expr) : Prop where
  eval : ∀ w, M.evalList σ es' w = M.evalList σ es w
  conditions : ∀ e ∈ es', M.Conditions σ e

namespace Keeps

variable {e e' e'' : Expr}

theorem of_eval (hnot : ∀ x, e' ≠ .not x) (he : ∀ w, M.eval σ e' w = M.eval σ e w) (h : M.Conditions σ e') :
    Keeps M σ e e' := ⟨he, fun ht => truth_of_eval hnot he ht.exists_eval, h⟩

theorem refl (h : M.Conditions σ e) : Keeps M σ e e := ⟨fun _ => rfl, id, h⟩

theorem trans (h : Keeps M σ e e') (h' : Keeps M σ e' e'') : Keeps M σ e e'' :=
  ⟨fun w => (h'.eval w).trans (h.eval w), fun ht => h'.truth (h.truth ht), h'.conditions⟩

end Keeps

namespace KeepsAll

variable {e e' : Expr} {es es' : List Expr}

theorem cons (he : ∀ w, M.eval σ e' w = M.eval σ e w) (hc : M.Conditions σ e') (hs : KeepsAll M σ es es') :
    KeepsAll M σ (e :: es) (e' :: es') := by
  refine ⟨fun w => ?_, fun x hx => ?_⟩
  · simp only [evalList, he, hs.eval]
  · rcases mem_cons.mp hx with rfl | hx
    · exact hc
    · exact hs.conditions x hx

theorem refl (h : ∀ e ∈ es, M.Conditions σ e) : KeepsAll M σ es es := ⟨fun _ => rfl, h⟩

end KeepsAll

section

variable (hM : ∀ op l r, M.compare (CmpOp.negate op) l r = !M.compare op l r)

include hM

theorem keepsAll_zipWith : (args : List Expr) → (ps : List ErasedType) → ps.length = args.length →
    (∀ e ∈ args, M.Conditions σ e) →
      KeepsAll M σ args (zipWith (fun a p => if p = .boolean then toBoolean a else a) args ps)
  | [], _, _, h => .refl h
  | a :: args, p :: ps, hlen, h => by
      have ha := h a mem_cons_self
      have hrest := keepsAll_zipWith args ps (by simpa using hlen) fun e he => h e (mem_cons_of_mem _ he)
      by_cases hp : p = .boolean
      · simpa [hp] using hrest.cons (eval_toBoolean hM a ha) (conditions_toBoolean a ha)
      · simpa [hp] using hrest.cons (fun _ => rfl) ha

theorem keepsAll_booleanArgs (d : String) {args} (h : ∀ e ∈ args, M.Conditions σ e) :
    KeepsAll M σ args (booleanArgs d args) := by
  unfold booleanArgs
  split
  · split
    · exact keepsAll_zipWith hM args _ ‹_› h
    · exact .refl h
  · exact .refl h

theorem keeps_zeroTest {op l r} (hop : op = .eq ∨ op = .ne) (ht : isTernary l = true)
    (hl : isBooleanValued l = true) (hr : isIntLit 0 r = true) (h : M.Conditions σ l) :
    Keeps M σ (.compare op l r) (if op = .ne then toBoolean l else (toBoolean l).negate) := by
  obtain rfl : r = .intLit 0 := by
    unfold isIntLit at hr
    split at hr
    · rw [eq_of_beq hr]
    · cases hr
  have htruth := truth_toBoolean hM ht hl h
  have heval := eval_toBoolean hM l h
  have hne (w : World V H) : M.compare .ne (M.eval σ l w).1 (.value (M.int 0)) = M.holds (M.eval σ (toBoolean l) w).1 := by
    rw [heval]
    rfl
  rcases hop with rfl | rfl
  · rw [if_neg (by decide)]
    refine ⟨fun w => ?_, fun _ => htruth.negate, (conditions_toBoolean l h).negate⟩
    rw [eval_negate_of_truth hM htruth.negate, ← hne, ← M.compare_eq, heval]
    rfl
  · rw [if_pos rfl]
    refine ⟨fun w => ?_, fun _ => htruth, conditions_toBoolean l h⟩
    rw [htruth.eval_eq, ← hne, heval]
    rfl

theorem keeps_booleanOperands (h : M.Conditions σ e) : Keeps M σ e (booleanOperands e) := by
  unfold booleanOperands
  split
  · rename_i op l r
    split
    · rename_i hc
      refine keeps_zeroTest hM hc.1 hc.2.1 hc.2.2.1 hc.2.2.2 fun c a b hm => h c a b ?_
      exact mem_cons_of_mem _ (mem_append_left _ hm)
    · exact .refl h
  · rename_i kind owner name d receiver args
    obtain ⟨-, h⟩ := conditions_iff.mp h
    rw [Expr.operands, forall_mem_append] at h
    have hargs := keepsAll_booleanArgs hM d h.2
    refine .of_eval (by simp) (fun w => by simp only [eval, hargs.eval]) (conditions_iff.mpr ⟨by simp, ?_⟩)
    rw [Expr.operands, forall_mem_append]
    exact ⟨h.1, hargs.conditions⟩
  · rename_i name d args
    obtain ⟨-, h⟩ := conditions_iff.mp h
    rw [Expr.operands] at h
    have hargs := keepsAll_booleanArgs hM d h
    exact .of_eval (by simp) (fun w => by simp only [eval, hargs.eval]) (conditions_iff.mpr ⟨by simp, hargs.conditions⟩)
  · exact .refl h

theorem Keeps.operands {e'} (h : Keeps M σ e e') : Keeps M σ e (booleanOperands e') :=
  h.trans (keeps_booleanOperands hM h.conditions)

-- Operands are rewritten first, so what a node tests and passes on has kept its value already.
theorem keeps_mapNodes (e : Expr) (h : M.Conditions σ e) : Keeps M σ e (e.mapNodes booleanOperands) := by
  induction e using Expr.operands_induction with
  | step e ih =>
      rw [conditions_iff] at h
      have ih (x : Expr) (hx : x ∈ e.operands) := ih x hx (h.2 x hx)
      rw [Expr.mapNodes_eq]
      have heval := eval_mapOperands (M := M) rfl (by cases e <;> trivial) fun x hx => (ih x hx).eval
      refine Keeps.operands hM ⟨heval, fun ht => ?_, conditions_iff.mpr ⟨fun c a b he => ?_, ?_⟩⟩
      · cases e with
        | not x => exact (ih x mem_cons_self).truth ht
        | _ => exact truth_of_eval (by simp [Expr.mapOperands]) heval ht.exists_eval
      · cases e with
        | ternary c' a' b' =>
            cases he
            exact (ih c' mem_cons_self).truth (h.1 c' a' b' rfl)
        | _ => cases he
      · rw [Expr.operands_mapOperands, forall_mem_map]
        exact fun x hx => (ih x hx).conditions

end

/-! ## Statements -/

/-- The expressions of a node give the same, wherever conditions of ternaries are truth values. -/
def Retyped (M : Model V H) (t t' : Tree) : Prop :=
  ∀ σ, (∀ e ∈ t.ownExprs, M.Conditions σ e) →
    t'.ownExprs.map (M.eval σ) = t.ownExprs.map (M.eval σ) ∧ ∀ e ∈ t'.ownExprs, M.Conditions σ e

theorem Retyped.trans {t t' t''} (h : Retyped M t t') (h' : Retyped M t' t'') : Retyped M t t'' :=
  fun σ ht => ⟨(h' σ (h σ ht).2).1.trans (h σ ht).1, (h' σ (h σ ht).2).2⟩

theorem forall₂_retyped_trans {ns ms ks} (h : List.Forall₂ (Retyped M) ns ms)
    (h' : List.Forall₂ (Retyped M) ms ks) : List.Forall₂ (Retyped M) ns ks := by
  induction h generalizing ks with
  | nil => exact h'
  | cons ht _ ih =>
      cases h' with
      | cons ht' hrest' => exact .cons (ht.trans ht') (ih hrest')

theorem compositional_retyped (M : Model V H) : Tree.Compositional (fun _ => True) (List.Forall₂ (Retyped M)) where
  nil := .nil
  node he _ _ := .cons (fun σ h => by rw [he]; exact ⟨rfl, h⟩) .nil
  append h h' := rel_append h h'
  trans := forall₂_retyped_trans
  split _ := ⟨trivial, trivial⟩
  keep _ _ := trivial

section

variable (hM : ∀ op l r, M.compare (CmpOp.negate op) l r = !M.compare op l r)

include hM

theorem retyped_mapOwn (t : Tree) : Retyped M t (t.mapOwn booleanOperands) := by
  intro σ h
  rw [Tree.ownExprs_mapOwn, List.map_map]
  refine ⟨map_congr_left fun e he => funext (keeps_mapNodes hM e (h e he)).eval, fun e' he' => ?_⟩
  obtain ⟨e, he, rfl⟩ := mem_map.mp he'
  exact (keeps_mapNodes hM e (h e he)).conditions

theorem retyped_booleanResult (returnType : ErasedType) (s : Located) :
    Retyped M (.simple s) (.simple (s.withStmt (booleanResult returnType s.stmt))) := by
  have hvalue (σ : Env V) (c : Prop) [Decidable c] {e : Expr} (he : M.Conditions σ e) :
      M.eval σ (if c then toBoolean e else e) = M.eval σ e ∧ M.Conditions σ (if c then toBoolean e else e) := by
    split
    · exact ⟨funext (eval_toBoolean hM e he), conditions_toBoolean e he⟩
    · exact ⟨rfl, he⟩
  intro σ h
  simp only [Tree.ownExprs, Located.withStmt] at h ⊢
  cases hs : s.stmt with
  | store v value =>
      simp only [hs, Stmt.operands, booleanResult, mem_singleton, forall_eq, map_cons] at h ⊢
      exact ⟨by rw [(hvalue σ _ h).1], (hvalue σ _ h).2⟩
  | fieldStore owner name t object value =>
      simp only [hs, Stmt.operands, booleanResult, mem_append, mem_singleton, or_imp, forall_and,
        forall_eq, map_append, map_cons] at h ⊢
      exact ⟨by rw [(hvalue σ _ h.2).1], h.1, (hvalue σ _ h.2).2⟩
  | leave value =>
      cases value with
      | none => simp [booleanResult, Stmt.operands]
      | some value =>
          simp only [hs, Stmt.operands, booleanResult, Option.toList_some, mem_singleton, forall_eq,
            map_cons] at h ⊢
          exact ⟨by rw [(hvalue σ _ h).1], (hvalue σ _ h).2⟩
  | _ => exact ⟨rfl, by rw [hs] at h; exact h⟩

theorem retyped_retypeBoolean (returnType : ErasedType) (t : Tree) :
    List.Forall₂ (Retyped M) t.nodes (retypeBoolean returnType t).nodes := by
  have hmap := (compositional_retyped M).mapOwn fun t => .cons (retyped_mapOwn hM t) .nil
  unfold retypeBoolean
  split
  · rename_i s
    have hresult : List.Forall₂ (Retyped M) [.simple s] [_] := .cons (retyped_booleanResult hM returnType s) .nil
    exact forall₂_retyped_trans hresult (hmap (.simple _))
  · exact hmap _

end

/-- Values and operations on the heap stay the same, of every expression and of the expressions of every
statement. -/
theorem eval_retypeBooleans (hM : ∀ op l r, M.compare (CmpOp.negate op) l r = !M.compare op l r)
    (returnType : ErasedType) : (∀ σ e, M.Conditions σ e → M.eval σ (toBoolean e) = M.eval σ e) ∧
      ∀ ts, List.Forall₂
        (fun t t' => ∀ σ, (∀ e ∈ t.ownExprs, M.Conditions σ e) →
          t'.ownExprs.map (M.eval σ) = t.ownExprs.map (M.eval σ))
        (Tree.nodesList ts) (Tree.nodesList (Tree.eachList (retypeBooleans returnType) ts)) := by
  refine ⟨fun σ e he => funext (eval_toBoolean hM e he), fun ts => ?_⟩
  have heach := (compositional_retyped M).eachList (f := retypeBooleans returnType)
    (fun us _ => (compositional_retyped M).map (fun t _ => retyped_retypeBoolean hM returnType t) us trivial) ts trivial
  exact heach.imp fun t t' h σ ht => (h σ ht).1

def integers : Model Int32 Int32 :=
  let number : Datum Int32 → Int32
    | .value v => v
    | .fresh .. => 0
  { int := id
    long := Int64.toInt32
    float := fun _ => 0
    double := fun _ => 0
    string := fun _ => 0
    classOf := fun _ => 0
    null := 0
    constant := fun _ => 0
    arith := fun _ a b => number a + number b
    neg := fun a => -number a
    convert := fun _ => number
    instanceOf := fun _ _ => true
    compare := fun op a b => op.ofInts (number a) (number b)
    order := fun a b => if number a < number b then -1 else if number a = number b then 0 else 1
    unordered := fun _ _ => false
    perform := fun _ _ n => (n, n + 1)
    compare_int := fun _ _ _ => rfl
    compare_eq := fun _ _ => by simp [CmpOp.ofInts, bne]
    compare_order := fun op _ _ _ => op.ofInts_order _ _ }

theorem compare_integers (op : CmpOp) (l r : Datum Int32) :
    integers.compare (CmpOp.negate op) l r = !integers.compare op l r :=
  op.ofInts_negate _ _

def below : Expr := .compare .lt (.localVar (.ofSlot 0 none .int)) (.localVar (.ofSlot 1 none .int))

/-- `f(test) == 0`, where `f` takes a boolean. -/
def failing (test : Expr) : Expr := .compare .eq (.call .static "a/Main" "f" "(Z)I" none [test]) (.intLit 0)

/-- `return below ? (failing(below ? 0 : 1) ? 1 : 0) : 0`. -/
def choice : Tree :=
  .simple ⟨.leave (some (.ternary below
    (.ternary (failing (.ternary below (.intLit 0) (.intLit 1))) (.intLit 1) (.intLit 0)) (.intLit 0))), 0, 20, none⟩

/-- `return below ? failing(!below) : false`. -/
def chosen : Tree := .simple ⟨.leave (some (.ternary below (failing below.negate) (.boolLit false))), 0, 20, none⟩

theorem conditions_choice (σ : Env Int32) : ∀ e ∈ choice.ownExprs, integers.Conditions σ e := by
  have hbelow : integers.Truth σ below := fun _ => ⟨_, rfl⟩
  have hfailing (test : Expr) : integers.Truth σ (failing test) := fun _ => ⟨_, rfl⟩
  intro e he c a b hm
  simp only [choice, Tree.ownExprs, Stmt.operands, Option.toList_some, mem_singleton] at he
  simp only [he, Expr.nodes, mem_cons, mem_append, Expr.ternary.injEq] at hm
  grind [below, failing, Expr.nodes, Expr.nodesOption, Expr.nodesList]

theorem eval_retypeBooleans_choice : (∀ op l r, integers.compare (CmpOp.negate op) l r = !integers.compare op l r) ∧
      Tree.eachList (retypeBooleans .boolean) [choice] = [chosen] ∧
      ∀ σ, chosen.ownExprs.map (integers.eval σ) = choice.ownExprs.map (integers.eval σ) := by
  have heach : Tree.eachList (retypeBooleans .boolean) [choice] = [chosen] := rfl
  have hvalues := (eval_retypeBooleans compare_integers .boolean).2 [choice]
  rw [heach] at hvalues
  refine ⟨compare_integers, heach, fun σ => ?_⟩
  cases hvalues with
  | cons h _ => exact h σ (conditions_choice σ)

end Sugar

end JvmLift
