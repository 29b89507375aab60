import JvmLift.Proofs.Tree.Vars

/-!
# Reads behind a substitution

A substitution puts one copy of the value where the variable was read. Two variables may both match a read without
matching each other: it counts for the one that is replaced.
-/
namespace JvmLift

open List

namespace Expr

variable (v w : LocalVar) (a : Expr)

/-- A read that matches one variable but not the other. -/
def isReadApart (e : Expr) : Bool := isReadOf w e && !isReadOf v e

theorem countP_reads {p q} (h : ∀ x, q x = (x.read?.map p).getD false)
    (es : List Expr) : (es.flatMap nodes).countP q = (es.flatMap vars).countP p := by
  obtain rfl : q = fun x => (x.read?.map p).getD false := funext h
  rw [← countP_filterMap, filterMap_flatMap]
  rfl

theorem countP_isReadOf (es : List Expr) : (es.flatMap nodes).countP (isReadOf v) = (es.flatMap vars).countP (·.same v) :=
  countP_reads (fun x => by cases x <;> rfl) es

theorem countP_isReadApart (es : List Expr) : (es.flatMap nodes).countP (isReadApart v w) =
    (es.flatMap vars).countP fun u => u.same w && !u.same v :=
  countP_reads (fun x => by cases x <;> rfl) es

theorem countP_varsFor (vs : List LocalVar) : (vs.flatMap (varsFor v a)).countP (·.same w) =
    vs.countP (fun u => u.same w && !u.same v) + vs.countP (·.same v) * a.vars.countP (·.same w) := by
  induction vs with
  | nil => simp
  | cons u vs ih =>
      rw [flatMap_cons, countP_append, ih, countP_cons, countP_cons, Nat.add_mul]
      cases h : u.same v with
      | true => simp [varsFor, h]; omega
      | false => cases hw : u.same w <;> simp [varsFor, h, hw]; omega

theorem countP_substitute (es : List Expr) : ((es.map (·.substitute v a)).flatMap nodes).countP (isReadOf w) =
      (es.flatMap nodes).countP (isReadApart v w) + (es.flatMap nodes).countP (isReadOf v) * a.countReads w := by
  have hvars : (es.map (·.substitute v a)).flatMap vars = (es.flatMap vars).flatMap (varsFor v a) := by
    rw [flatMap_map, flatMap_assoc]
    exact flatMap_congr fun e _ => vars_mapNodes_replaceRead v a e
  have ha : a.countReads w = a.vars.countP (·.same w) := by simpa [countReads] using countP_isReadOf w [a]
  rw [countP_isReadOf, countP_isReadOf, countP_isReadApart, hvars, ha, countP_varsFor]

theorem mapOperands_id (e : Expr) : e.mapOperands (fun x => x) = e := by cases e <;> simp [mapOperands]

theorem substitute_of_unread {e : Expr} (h : ∀ x ∈ e.nodes, isReadOf v x = false) : e.substitute v a = e := by
  induction e using operands_induction with
  | step e ih =>
      have hoperands : e.mapOperands (mapNodes (replaceRead v a)) = e.mapOperands (fun x => x) :=
        mapOperands_congr fun x hx => ih x hx fun y hy => h y (mem_nodes.mpr (.inr ⟨x, hx, hy⟩))
      rw [substitute, mapNodes_eq, hoperands, mapOperands_id, replaceRead, h e (mem_nodes.mpr (.inl rfl))]
      rfl

end Expr

theorem Stmt.nodes_substitute (v : LocalVar) (a : Expr) (s : Stmt) :
    (s.mapNodes (Expr.replaceRead v a)).nodes = (s.operands.map (·.substitute v a)).flatMap (·.nodes) := by
  rw [nodes, operands_mapNodes]
  rfl

theorem Stmt.substitute_of_unread (v : LocalVar) (a : Expr) {s : Stmt}
    (h : ∀ x ∈ s.nodes, Expr.isReadOf v x = false) : s.mapNodes (Expr.replaceRead v a) = s := by
  have hsame {e : Expr} (he : e ∈ s.operands) : e.mapNodes (Expr.replaceRead v a) = e :=
    Expr.substitute_of_unread v a fun x hx => h x (mem_flatMap.mpr ⟨e, he, hx⟩)
  cases s with
  | fieldStore owner name t object value => cases object <;> simp_all [operands, mapNodes]
  | leave value => cases value <;> simp_all [operands, mapNodes]
  | _ => simp_all [operands, mapNodes]

/-- Visiting and rewriting agree. After a substitution, the reads of a variable are the reads there were that match
it and not the one replaced, and those of the value, once for each read replaced. This holds for every expression
and every statement, and what does not read the variable is left as it is. -/
theorem substitution_adds_up (v w : LocalVar) (a : Expr) : (∀ e : Expr, (e.substitute v a).countReads w =
      e.nodes.countP (Expr.isReadApart v w) + e.countReads v * a.countReads w) ∧
    (∀ s : Stmt, (s.mapNodes (Expr.replaceRead v a)).nodes.countP (Expr.isReadOf w) =
      s.nodes.countP (Expr.isReadApart v w) + s.nodes.countP (Expr.isReadOf v) * a.countReads w) ∧
    (∀ e : Expr, e.reads v = false → e.substitute v a = e) ∧
    ∀ s : Stmt, s.nodes.any (Expr.isReadOf v) = false → s.mapNodes (Expr.replaceRead v a) = s := by
  refine ⟨fun e => ?_, fun s => ?_, fun e h => Expr.substitute_of_unread v a ?_,
    fun s h => Stmt.substitute_of_unread v a ?_⟩
  · simpa [Expr.countReads] using Expr.countP_substitute v w a [e]
  · rw [Stmt.nodes_substitute, Expr.countP_substitute]
    rfl
  · simpa [Expr.reads, Expr.countReads] using h
  · simpa using h

def inSlot (name : Option String) : LocalVar := .ofSlot 2 name .int

/-- An unnamed read matches both names of its slot: it is replaced as a read of the one, and counts as a read of the
other only through the value. -/
theorem substitution_adds_up_unnamed :
    (Expr.substitute (.binary .add .int (.localVar (inSlot none)) (.localVar (inSlot (some "j")))) (inSlot (some "i"))
      (.localVar (inSlot (some "j")))).countReads (inSlot (some "j")) = 1 + 1 * 1 ∧
    (Expr.localVar (inSlot (some "j"))).substitute (inSlot (some "i")) .nullLit = .localVar (inSlot (some "j")) :=
  ⟨(substitution_adds_up _ _ _).1 _, (substitution_adds_up _ (inSlot none) _).2.2.1 _ (by decide)⟩

end JvmLift
