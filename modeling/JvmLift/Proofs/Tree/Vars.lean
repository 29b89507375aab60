import JvmLift.Proofs.Block.Settling
import JvmLift.Sugar.Vars
import Mathlib.Data.List.Basic

/-!
# Reads and writes

Which variables expressions read, and which ones the statements of a list read and write, in the order in
which they are met.
-/
namespace JvmLift

open List

/-! ## Expressions -/

namespace Expr

def read? : Expr → Option LocalVar
  | .localVar v => some v
  | _ => none

def vars (e : Expr) : List LocalVar := e.nodes.filterMap read?

theorem vars_eq (e : Expr) : e.vars = e.read?.toList ++ e.operands.flatMap vars := by
  rw [vars, nodes_eq, filterMap_cons, filterMap_flatMap]
  cases e.read? <;> rfl

section

variable (e l r c a b : Expr) (es : List Expr)

@[simp] theorem vars_localVar (v : LocalVar) : (localVar v).vars = [v] := rfl
@[simp] theorem vars_intLit (n : Int32) : (intLit n).vars = [] := rfl
@[simp] theorem vars_binary (op : ArithOp) (t : ErasedType) : (binary op t l r).vars = l.vars ++ r.vars :=
  filterMap_append
@[simp] theorem vars_logical (op : LogicalOp) : (logical op l r).vars = l.vars ++ r.vars := filterMap_append
@[simp] theorem vars_compare (op : CmpOp) : (compare op l r).vars = l.vars ++ r.vars := filterMap_append
@[simp] theorem vars_cast (t : ErasedType) : (cast t e).vars = e.vars := rfl
@[simp] theorem vars_ternary : (ternary c a b).vars = c.vars ++ a.vars ++ b.vars := by
  rw [vars, nodes, filterMap_cons_none rfl, filterMap_append, filterMap_append, vars, vars, vars]
@[simp] theorem vars_call (kind : InvokeKind) (owner name d : String) (receiver : Option Expr) :
    (call kind owner name d receiver es).vars = receiver.toList.flatMap vars ++ es.flatMap vars :=
  (vars_eq _).trans flatMap_append
@[simp] theorem vars_new (name d : String) : (new name d es).vars = es.flatMap vars := vars_eq _
@[simp] theorem vars_arrayLength : (arrayLength e).vars = e.vars := rfl
@[simp] theorem vars_arrayLoad (t : ErasedType) : (arrayLoad l r t).vars = l.vars ++ r.vars := filterMap_append

end

theorem vars_negate : (e : Expr) → e.negate.vars = e.vars
  | .logical op l r => by simp [negate, vars_negate l, vars_negate r]
  | .compare _ l r => (vars_compare l r _).trans (vars_compare l r _).symm
  | .intLit _ | .longLit _ | .floatLit _ | .doubleLit _ | .boolLit _ | .charLit _ | .stringLit _ | .classLit _
  | .nullLit | .thisRef | .localVar _ | .caught _ | .returnAddress | .dupLoad _ | .binary .. | .neg _ | .not _
  | .cmpResult .. | .cast .. | .instanceOf .. | .ternary .. | .fieldGet .. | .call .. | .dynamic .. | .new ..
  | .uninitNew .. | .newArray .. | .arrayLength _ | .arrayLoad .. | .unresolved _ => rfl

/-! ### Mapping -/

theorem read?_mapOperands (f : Expr → Expr) (e : Expr) : (e.mapOperands f).read? = e.read? := by cases e <;> rfl

def varsFor (v : LocalVar) (value : Expr) (w : LocalVar) : List LocalVar := if w.same v then value.vars else [w]

theorem replaceRead_of_read? (v : LocalVar) (value : Expr) {e} (h : e.read? = none) : replaceRead v value e = e := by
  cases e with
  | localVar w => cases h
  | _ => rfl

theorem vars_mapNodes_replaceRead (v : LocalVar) (value e : Expr) :
    (e.mapNodes (replaceRead v value)).vars = e.vars.flatMap (varsFor v value) := by
  induction e using operands_induction with
  | step e ih =>
      rw [mapNodes_eq]
      rcases hread : e.read? with - | w
      · rw [replaceRead_of_read? v value (by rw [read?_mapOperands, hread]), vars_eq, vars_eq e, read?_mapOperands,
          operands_mapOperands, hread]
        simpa [flatMap_map, flatMap_assoc] using flatMap_congr ih
      · obtain rfl : e = .localVar w := by cases e <;> simp_all [read?]
        cases h : w.same v <;> simp [mapOperands, replaceRead, isReadOf, varsFor, h]

theorem vars_map_sublist {g} {es : List Expr} (hg : ∀ e ∈ es, (g e).vars.Sublist e.vars) :
    ((es.map g).flatMap vars).Sublist (es.flatMap vars) := by
  induction es with
  | nil => exact .slnil
  | cons e es ih =>
      rw [forall_mem_cons] at hg
      exact hg.1.append (ih hg.2)

theorem vars_mapNodes_sublist {f : Expr → Expr} (hf : ∀ e, (f e).vars.Sublist e.vars) (e : Expr) :
    (e.mapNodes f).vars.Sublist e.vars := by
  induction e using operands_induction with
  | step e ih =>
      rw [mapNodes_eq]
      refine (hf _).trans ?_
      rw [vars_eq, vars_eq e, read?_mapOperands, operands_mapOperands]
      exact (List.Sublist.refl _).append (vars_map_sublist ih)

end Expr

/-! ## Statements -/

namespace Tree

theorem ownReads_eq (t : Tree) : t.ownReads = t.ownExprs.flatMap (·.vars) := by
  rw [ownReads, ownNodes, filterMap_flatMap]
  rfl

section

variable (e : Expr) (ts : List Tree)

@[simp] theorem ownReads_simple (s : Located) : (simple s).ownReads = s.stmt.operands.flatMap (·.vars) :=
  ownReads_eq _
@[simp] theorem ownReads_ifElse (b : Option (List Tree)) : (ifElse e ts b).ownReads = e.vars := by
  simp [ownReads_eq, ownExprs]
@[simp] theorem ownReads_whileLoop : (whileLoop e ts).ownReads = e.vars := by simp [ownReads_eq, ownExprs]
@[simp] theorem ownReads_forLoop (i u : Option Tree) : (forLoop i e u ts).ownReads = e.vars := by
  simp [ownReads_eq, ownExprs]
@[simp] theorem ownReads_forEach (v : LocalVar) : (forEach v e ts).ownReads = e.vars := by
  simp [ownReads_eq, ownExprs]
@[simp] theorem ownReads_switch (k : SwitchKind) (arms : List (Arm × List Tree)) :
    (switch k e arms).ownReads = e.vars := by simp [ownReads_eq, ownExprs]
@[simp] theorem ownReads_labeled (name : String) (t : Tree) : (labeled name t).ownReads = [] := rfl

@[simp] theorem ownReads_tryCatch (shape : TryShape) (cs : List (Clause × List Tree)) (b : Option (List Tree)) :
    (tryCatch shape ts cs b).ownReads = [] := rfl

@[simp] theorem ownWrites_simple (s : Located) : (simple s).ownWrites = s.stmt.written?.toList := rfl
@[simp] theorem ownWrites_ifElse (b : Option (List Tree)) : (ifElse e ts b).ownWrites = [] := rfl
@[simp] theorem ownWrites_whileLoop : (whileLoop e ts).ownWrites = [] := rfl
@[simp] theorem ownWrites_forLoop (i u : Option Tree) : (forLoop i e u ts).ownWrites = [] := rfl
@[simp] theorem ownWrites_forEach (v : LocalVar) : (forEach v e ts).ownWrites = [v] := rfl
@[simp] theorem ownWrites_switch (k : SwitchKind) (arms : List (Arm × List Tree)) :
    (switch k e arms).ownWrites = [] := rfl
@[simp] theorem ownWrites_labeled (name : String) (t : Tree) : (labeled name t).ownWrites = [] := rfl
@[simp] theorem ownWrites_tryCatch (shape : TryShape) (cs : List (Clause × List Tree)) (b : Option (List Tree)) :
    (tryCatch shape ts cs b).ownWrites = cs.map (·.1.var) := rfl

end

theorem ownExprs_mapOwn (f : Expr → Expr) (t : Tree) : (t.mapOwn f).ownExprs = t.ownExprs.map (·.mapNodes f) := by
  cases t with
  | simple s => exact Stmt.operands_mapNodes f s.stmt
  | declare v init line => cases init <;> rfl
  | forLoop i e u b => cases i <;> cases u <;> rfl
  | _ => rfl

theorem ownWrites_mapOwn (f : Expr → Expr) (t : Tree) : (t.mapOwn f).ownWrites = t.ownWrites := by
  cases t with
  | simple s => cases h : s.stmt <;> simp [mapOwn, Located.withStmt, Stmt.mapNodes, Stmt.written?, h]
  | declare v init line => cases init <;> rfl
  | forLoop i e u b => cases i <;> cases u <;> rfl
  | _ => rfl

def readKeys (nodes : List Tree) : List VarKey := nodes.flatMap fun t => t.ownReads.map (·.key)

def writtenKeys (nodes : List Tree) : List VarKey := nodes.flatMap fun t => t.ownWrites.map (·.key)

@[simp] theorem readKeys_nil : readKeys [] = [] := rfl

@[simp] theorem writtenKeys_nil : writtenKeys [] = [] := rfl

@[simp] theorem readKeys_append (ns ms : List Tree) : readKeys (ns ++ ms) = readKeys ns ++ readKeys ms :=
  flatMap_append

@[simp] theorem writtenKeys_append (ns ms : List Tree) :
    writtenKeys (ns ++ ms) = writtenKeys ns ++ writtenKeys ms := flatMap_append

@[simp] theorem readKeys_cons (t : Tree) (ns : List Tree) :
    readKeys (t :: ns) = t.ownReads.map (·.key) ++ readKeys ns := flatMap_cons

@[simp] theorem writtenKeys_cons (t : Tree) (ns : List Tree) :
    writtenKeys (t :: ns) = t.ownWrites.map (·.key) ++ writtenKeys ns := flatMap_cons

theorem ofStmts_eq (ts : List Tree) : VarUses.ofStmts ts = ⟨readKeys (nodesList ts), writtenKeys (nodesList ts)⟩ := rfl

/-! ## Names -/

section

variable {N : List VarKey} {ns ms : List Tree}

def OneName (N : List VarKey) : Prop :=
  ∀ k ∈ N, ∀ l ∈ N, k.origin = l.origin → k.index = l.index → k.name = l.name

def Within (N : List VarKey) (ns : List Tree) : Prop := readKeys ns ++ writtenKeys ns ⊆ N

theorem within_append : Within N (ns ++ ms) ↔ Within N ns ∧ Within N ms := by
  simp only [Within, readKeys_append, writtenKeys_append, append_subset]
  exact and_and_and_comm

theorem Within.tail {t} (h : Within N (t :: ns)) : Within N ns :=
  (within_append.mp (show Within N ([t] ++ ns) from h)).2

theorem Within.reads (h : Within N ns) {k} (hk : k ∈ readKeys ns) : k ∈ N :=
  h (mem_append_left _ hk)

theorem Within.writes (h : Within N ns) {k} (hk : k ∈ writtenKeys ns) : k ∈ N :=
  h (mem_append_right _ hk)

theorem OneName.key_eq (hN : OneName N) {v w : LocalVar} (hv : v.key ∈ N) (hw : w.key ∈ N)
    (h : v.same w = true) : v.key = w.key := by
  simp only [LocalVar.same, Bool.and_eq_true, beq_iff_eq] at h
  have hname : v.name = w.name := hN _ hv _ hw h.1.1 h.1.2
  simp [LocalVar.key, h.1.1, h.1.2, hname]

end

end Tree

end JvmLift
