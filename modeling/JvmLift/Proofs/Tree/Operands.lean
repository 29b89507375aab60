import JvmLift.Expr.Condition
import JvmLift.Expr.Traverse

/-!
# Operands of an expression

Traversals seen one level at a time: a node and what its operands give. Facts about every expression follow by
induction over the operands, without a case for each kind of node.
-/
namespace JvmLift.Expr

open List

def operands : Expr → List Expr
  | .binary _ _ l r | .logical _ l r | .compare _ l r | .cmpResult l r | .arrayLoad l r _ => [l, r]
  | .neg e | .not e | .cast _ e | .instanceOf e _ | .arrayLength e => [e]
  | .ternary c a b => [c, a, b]
  | .fieldGet _ _ _ object => object.toList
  | .call _ _ _ _ receiver args => receiver.toList ++ args
  | .dynamic _ _ _ args | .new _ _ args | .newArray _ args => args
  | _ => []

def mapOperands (f : Expr → Expr) : Expr → Expr
  | .binary op t l r => .binary op t (f l) (f r)
  | .neg e => .neg (f e)
  | .not e => .not (f e)
  | .logical op l r => .logical op (f l) (f r)
  | .compare op l r => .compare op (f l) (f r)
  | .cmpResult l r => .cmpResult (f l) (f r)
  | .cast t e => .cast t (f e)
  | .instanceOf e t => .instanceOf (f e) t
  | .ternary c a b => .ternary (f c) (f a) (f b)
  | .fieldGet owner name t object => .fieldGet owner name t (object.map f)
  | .call kind owner name d receiver args => .call kind owner name d (receiver.map f) (args.map f)
  | .dynamic name d bootstrap args => .dynamic name d bootstrap (args.map f)
  | .new name d args => .new name d (args.map f)
  | .newArray t dims => .newArray t (dims.map f)
  | .arrayLength e => .arrayLength (f e)
  | .arrayLoad a i t => .arrayLoad (f a) (f i) t
  | e => e

theorem sizeOf_lt_of_mem_operands {e x : Expr} (h : x ∈ e.operands) : sizeOf x < sizeOf e := by
  have hlist {es : List Expr} (hx : x ∈ es) := sizeOf_lt_of_mem hx
  cases e with
  | fieldGet owner name t object =>
      cases object <;> simp_all [operands]
      omega
  | call kind owner name d receiver args => cases receiver <;> simp_all [operands] <;> grind
  | _ => simp [operands] at h <;> grind

@[elab_as_elim] theorem operands_induction {P : Expr → Prop} (step : ∀ e, (∀ x ∈ e.operands, P x) → P e) (e : Expr) :
    P e := step e fun x _ => operands_induction step x
termination_by e
decreasing_by exact sizeOf_lt_of_mem_operands ‹_›

theorem nodesList_eq (es : List Expr) : nodesList es = es.flatMap nodes := by
  induction es with
  | nil => rfl
  | cons e es ih => rw [nodesList, ih, flatMap_cons]

theorem nodesOption_eq (e : Option Expr) : nodesOption e = e.toList.flatMap nodes := by
  cases e <;> simp [nodesOption]

theorem nodes_eq (e : Expr) : e.nodes = e :: e.operands.flatMap nodes := by
  cases e <;> simp [nodes, operands, nodesOption_eq, nodesList_eq]

theorem mapNodesList_eq (f : Expr → Expr) (es : List Expr) : mapNodesList f es = es.map (mapNodes f) := by
  induction es with
  | nil => rfl
  | cons e es ih => rw [mapNodesList, ih, map_cons]

theorem mapNodesOption_eq (f : Expr → Expr) (e : Option Expr) : mapNodesOption f e = e.map (mapNodes f) := by
  cases e <;> rfl

theorem mapNodes_eq (f : Expr → Expr) (e : Expr) : e.mapNodes f = f (e.mapOperands (mapNodes f)) := by
  cases e <;> simp only [mapNodes, mapOperands, mapNodesOption_eq, mapNodesList_eq]

theorem operands_mapOperands (f : Expr → Expr) (e : Expr) : (e.mapOperands f).operands = e.operands.map f := by
  cases e <;> simp [mapOperands, operands, Option.toList_map]

theorem mapOperands_congr {f g} {e : Expr} (h : ∀ x ∈ e.operands, f x = g x) : e.mapOperands f = e.mapOperands g := by
  cases e with
  | fieldGet owner name t object => cases object <;> simp_all [mapOperands, operands]
  | call kind owner name d receiver args => cases receiver <;> simp_all [mapOperands, operands]
  | _ => simp_all [mapOperands, operands]

theorem mem_nodes {e x : Expr} : x ∈ e.nodes ↔ x = e ∨ ∃ y ∈ e.operands, x ∈ y.nodes := by
  rw [nodes_eq, mem_cons, mem_flatMap]

/-! ## What is read -/

def isSource : Expr → Bool
  | .localVar _ | .dupLoad _ => true
  | _ => false

def sources (e : Expr) : List Expr := e.nodes.filter isSource

theorem sources_eq (e : Expr) : e.sources = [e].filter isSource ++ e.operands.flatMap sources := by
  rw [sources, nodes_eq, ← singleton_append, filter_append, filter_flatMap]
  rfl

theorem sources_retype (e : Expr) (t : ErasedType) : (e.retype t).sources = e.sources := by
  induction e using Expr.retype.induct t with
  | case1 v h => rw [retype, if_pos h]; rfl
  | case2 v h0 h => rw [retype, if_neg h0, if_pos h]; rfl
  | case3 v h0 h1 h => rw [retype, if_neg h0, if_neg h1, if_pos h]; rfl
  | case4 v h0 h1 h2 => rw [retype, if_neg h0, if_neg h1, if_neg h2]
  | case5 c a b h iha ihb =>
      rw [retype, if_pos h, sources_eq, sources_eq (.ternary c a b)]
      simp [operands, isSource, iha, ihb]
  | case6 c a b h => rw [retype, if_neg h]
  | case7 e h1 h2 => rw [retype.eq_3 _ _ h1 h2]

theorem sources_negate (e : Expr) : e.negate.sources = e.sources := by
  induction e using Expr.negate.induct with
  | case4 op l r ihl ihr =>
      rw [negate, sources_eq, sources_eq (.logical op l r)]
      simp [operands, isSource, ihl, ihr]
  | case5 e h1 h2 h3 h4 => rw [negate.eq_5 _ h1 h2 h3 h4]; rfl
  | _ => rfl

theorem sources_compare (op : CmpOp) (l r : Expr) : (compare op l r).sources = l.sources ++ r.sources := by
  rw [sources_eq]
  simp [operands, isSource]

theorem sources_zeroTest (op : CmpOp) (v : Expr) : (v.zeroTest op).sources = v.sources := by
  unfold zeroTest
  split
  · rfl
  · split
    · rfl
    · split
      · exact sources_negate v
      · rw [sources_compare, sources_retype]
        exact append_nil _

end JvmLift.Expr
