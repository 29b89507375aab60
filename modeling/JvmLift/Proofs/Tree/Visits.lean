import JvmLift.Proofs.Tree.Vars
import JvmLift.Unit.References
import Mathlib.Data.Multiset.Bind

/-!
# Visits

A walk hands over one statement after the other, and each statement the expressions of its own. So every expression of
a body, in whatever field and however deep, is met once.
-/
namespace JvmLift

/-- The expressions that an expression is made of, itself among them. -/
def Expr.terms (e : Expr) : Multiset Expr := e ::ₘ (Multiset.ofList e.operands.attach).bind fun x => x.1.terms
termination_by e
decreasing_by exact sizeOf_lt_of_mem_operands x.2

theorem Expr.terms_eq (e : Expr) : e.terms = e.nodes := by
  induction e using operands_induction with
  | step e ih =>
      have hoperands : (Multiset.ofList e.operands.attach).bind (fun x => x.1.terms) =
          (Multiset.ofList e.operands.attach).bind fun x => x.1.nodes :=
        Multiset.bind_congr fun x _ => ih x.1 x.2
      rw [terms, hoperands, nodes_eq]
      simp

namespace Tree

mutual

/-- The expressions of all fields of a statement, and of the statements in it. -/
def terms : Tree → Multiset Expr
  | .simple s => (s.stmt.operands : Multiset Expr).bind Expr.terms
  | .declare _ init _ => (init.toList : Multiset Expr).bind Expr.terms
  | .ifElse e t b => e.terms + termsList t + termsBlock b
  | .whileLoop e b | .forEach _ e b | .synchronized e b => e.terms + termsList b
  | .doWhile b e => termsList b + e.terms
  | .forLoop i e u b => termsPart i + e.terms + termsPart u + termsList b
  | .switch _ e arms => e.terms + termsArms arms
  | .tryCatch _ b cs c => termsList b + termsClauses cs + termsBlock c
  | .labeled _ t => t.terms
  | .breakTo _ | .continueTo _ | .label _ | .goto _ | .comment _ => 0

def termsPart : Option Tree → Multiset Expr
  | none => 0
  | some t => t.terms

def termsBlock : Option (List Tree) → Multiset Expr
  | none => 0
  | some ts => termsList ts

def termsList : List Tree → Multiset Expr
  | [] => 0
  | t :: ts => t.terms + termsList ts

def termsArms : List (Arm × List Tree) → Multiset Expr
  | [] => 0
  | (_, b) :: rest => termsList b + termsArms rest

def termsClauses : List (Clause × List Tree) → Multiset Expr
  | [] => 0
  | (_, b) :: rest => termsList b + termsClauses rest

end

def visited (ns : List Tree) : Multiset Expr := ns.flatMap ownNodes

@[simp] theorem visited_append (ns ms : List Tree) : visited (ns ++ ms) = visited ns + visited ms := by
  simp [visited]

@[simp] theorem visited_cons (t : Tree) (ns : List Tree) :
    visited (t :: ns) = (t.ownExprs : Multiset Expr).bind Expr.terms + visited ns := by
  have hown : (t.ownExprs : Multiset Expr).bind Expr.terms = t.ownNodes := by
    rw [funext Expr.terms_eq, Multiset.coe_bind]
    rfl
  simp [visited, hown]

@[simp] theorem visited_nil : visited [] = 0 := rfl

attribute [local simp] nodes nodesPart nodesBlock nodesList nodesArms nodesClauses ownExprs terms termsPart termsBlock
  termsList termsArms termsClauses

mutual

theorem visited_nodes : (t : Tree) → visited t.nodes = t.terms
  | .ifElse e t b => by simp [visited_nodesList t, visited_nodesBlock b, add_assoc]
  | .whileLoop _ b | .forEach _ _ b | .synchronized _ b => by simp [visited_nodesList b]
  | .doWhile b e => by simp [visited_nodesList b, add_comm]
  | .forLoop i e u b => by
      simp only [nodes, visited_cons, visited_append, visited_nodesPart i, visited_nodesPart u, visited_nodesList b,
        ownExprs, terms]
      -- The test is met before the parts.
      simp [add_assoc, add_left_comm]
  | .switch _ _ arms => by simp [visited_nodesArms arms]
  | .tryCatch _ b cs c => by simp [visited_nodesList b, visited_nodesClauses cs, visited_nodesBlock c, add_assoc]
  | .labeled _ t => by simp [visited_nodes t]
  | .simple _ | .declare .. | .breakTo _ | .continueTo _ | .label _ | .goto _ | .comment _ => by simp

theorem visited_nodesPart : (part : Option Tree) → visited (nodesPart part) = termsPart part
  | none => by simp
  | some t => by simp [visited_nodes t]

theorem visited_nodesBlock : (b : Option (List Tree)) → visited (nodesBlock b) = termsBlock b
  | none => by simp
  | some ts => by simp [visited_nodesList ts]

theorem visited_nodesList : (ts : List Tree) → visited (nodesList ts) = termsList ts
  | [] => by simp
  | t :: ts => by simp [visited_nodes t, visited_nodesList ts]

theorem visited_nodesArms : (arms : List (Arm × List Tree)) → visited (nodesArms arms) = termsArms arms
  | [] => by simp
  | (_, b) :: rest => by simp [visited_nodesList b, visited_nodesArms rest]

theorem visited_nodesClauses : (cs : List (Clause × List Tree)) → visited (nodesClauses cs) = termsClauses cs
  | [] => by simp
  | (_, b) :: rest => by simp [visited_nodesList b, visited_nodesClauses rest]

end

theorem flatMap_ownNodes {α} (pick : Expr → Option α) (ts : List Tree) :
    (((nodesList ts).flatMap fun t => t.ownNodes.filterMap pick : List α) : Multiset α) =
      (termsList ts).filterMap pick := by
  rw [← visited_nodesList, visited, Multiset.filterMap_coe, List.filterMap_flatMap]

/-- A walk over a body meets each of its expressions once. So the reads of its variables are counted once each, and so
are the classes that its expressions name, beside those that its statements name. -/
theorem walk_meets_terms (ts : List Tree) :
    (((nodesList ts).flatMap ownNodes : List Expr) : Multiset Expr) = termsList ts ∧
    ((VarUses.ofStmts ts).readKeys : Multiset VarKey) = (termsList ts).filterMap (fun e => e.read?.map (·.key)) ∧
    ((ts.flatMap mentioned : List String) : Multiset String) =
      ((nodesList ts).flatMap mentionedNames : List String) + (termsList ts).filterMap Expr.mentioned? := by
  refine ⟨visited_nodesList ts, ?_, ?_⟩
  · rw [← flatMap_ownNodes]
    simp only [VarUses.ofStmts, ownReads, List.map_filterMap]
    rfl
  · have hlist : nodesList ts = ts.flatMap nodes := by
      induction ts with
      | nil => rfl
      | cons t ts ih => rw [nodesList, ih, List.flatMap_cons]
    have hbind : ts.flatMap mentioned =
        (nodesList ts).flatMap fun t => t.mentionedNames ++ t.ownNodes.filterMap Expr.mentioned? := by
      rw [hlist, List.flatMap_assoc]
      rfl
    rw [hbind, ← flatMap_ownNodes, ← Multiset.coe_bind, ← Multiset.coe_bind, ← Multiset.coe_bind, ← Multiset.bind_add]
    simp only [Multiset.coe_add]

end Tree

end JvmLift
