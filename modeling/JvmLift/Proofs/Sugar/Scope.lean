import JvmLift.Proofs.Structure.Method
import JvmLift.Proofs.Sugar.Passes
import JvmLift.Proofs.Walk.Scope

/-!
# Jumps stay well scoped

Every pass over a method body refines it: statements are dropped, put in place of others, and change
from one form of loop or switch to another, but no jump loses its construct or its label.
-/
namespace JvmLift

open JvmLift.Tree (Scoped ScopedList Mark marks Refines RefinesOne)

namespace Tree

/-! ## Plain statements -/

theorem Refines.simple (s : Located) (ts : List Tree) : Refines [.simple s] ts :=
  ⟨fun _ _ => ⟨trivial, trivial⟩, List.nil_sublist _⟩

theorem RefinesOne.mapOwn (f : Expr → Expr) : (t : Tree) → RefinesOne (t.mapOwn f) t
  | .forLoop none _ none _ => .forLoop _ _ (.refl _) (.refl _) (.refl _)
  | .forLoop (some i) _ none _ => .forLoop _ _ (RefinesOne.mapOwn f i).refines (.refl _) (.refl _)
  | .forLoop none _ (some u) _ => .forLoop _ _ (.refl _) (RefinesOne.mapOwn f u).refines (.refl _)
  | .forLoop (some i) _ (some u) _ =>
      .forLoop _ _ (RefinesOne.mapOwn f i).refines (RefinesOne.mapOwn f u).refines (.refl _)
  | .labeled name t => .labeled name (RefinesOne.mapOwn f t)
  | .ifElse .. => .ifElse _ _ (.refl _) (.refl _)
  | .whileLoop .. => .whileLoop _ _ (.refl _)
  | .doWhile .. => .doWhile _ _ (.refl _)
  | .forEach .. => .forEach _ _ _ _ (.refl _)
  | .switch .. => .switch _ _ _ _ (.refl _)
  | .synchronized .. => .synchronized _ _ (.refl _)
  | .simple _ | .declare .. => ⟨⟨fun _ => id, List.Sublist.refl _⟩, rfl⟩
  | .tryCatch .. | .breakTo _ | .continueTo _ | .label _ | .goto _ | .comment _ => .refl _

/-! ## Loops in other forms -/

section

variable {body body' : List Tree}

theorem RefinesOne.forEach_of_while (v : LocalVar) (e test : Expr) (h : Refines body' body) :
    RefinesOne (.forEach v e body') (.whileLoop test body) :=
  .of_scoped rfl (fun _ => h.jumps _) (by simpa using h.marks)

theorem RefinesOne.forLoop_of_while (init update : Located) (e test : Expr) (h : Refines body' body) :
    RefinesOne (.forLoop (some (.simple init)) e (some (.simple update)) body') (.whileLoop test body) :=
  .of_scoped rfl (fun _ hs => ⟨trivial, trivial, h.jumps _ hs⟩) (by simpa using h.marks)

end

end Tree

namespace Sugar

theorem refines_relabeled (name : Option String) {t u} (h : RefinesOne u t) :
    RefinesOne (relabeled name u) (relabeled name t) := by
  cases name with
  | none => exact h
  | some name => exact .labeled name h

/-! ## Passes -/

theorem refines_arms {f : Arm × List Tree → Arm × List Tree} (hf : ∀ arm, (f arm).2 = arm.2)
    (arms : List (Arm × List Tree)) : Refines ((arms.map f).flatMap (·.2)) (arms.flatMap (·.2)) := by
  rw [List.flatMap_map]
  simp only [hf]
  exact .refl _

theorem Recasts.refinesOne {t u} (h : Recasts t u) : RefinesOne u t := by
  cases h with
  | forEach test v e h => exact .forEach_of_while _ _ _ (.of_sublist h)
  | forLoop test init update h => exact .forLoop_of_while _ _ _ _ (.of_sublist h)
  | switch k k' e e' arms hf => exact .switch _ _ _ _ (refines_arms hf arms)

theorem Rewrites.refines {t u} (h : Rewrites t u) : Refines [u] [t] := by
  cases h with
  | refl => exact .refl _
  | simple t s => exact .simple s _
  | mapOwn t f => exact (RefinesOne.mapOwn f t).refines
  | lastOfTry shape front last s cleanup =>
      exact (RefinesOne.tryCatch shape ((Refines.refl front).append (.simple s _)) (.refl _) (.refl _)).refines
  | recast name h => exact (refines_relabeled name h.refinesOne).refines

theorem Passes.refines {ts us} (h : Passes ts us) : Refines us ts := by
  induction h with
  | nil => exact .refl _
  | drop t h ih => exact ih.drop_cons
  | cons ht h ih => exact ht.refines.cons ih
  | trans h h' ih ih' => exact ih.trans ih'

/-! ## Declarations -/

theorem refines_declared : (t : Tree) → RefinesOne (declared t) t
  | .forLoop (some i) _ _ _ => .forLoop _ _ (refines_declared i).refines (.refl _) (.refl _)
  | .labeled name t => .labeled name (refines_declared t)
  | .simple ⟨stmt, _, _, _⟩ => by cases stmt <;> exact ⟨⟨fun _ => id, List.Sublist.refl _⟩, rfl⟩
  | .forLoop none _ _ _ | .declare .. | .ifElse .. | .whileLoop .. | .doWhile .. | .forEach .. | .switch ..
  | .tryCatch .. | .synchronized .. | .breakTo _ | .continueTo _ | .label _ | .goto _ | .comment _ =>
      .refl _

theorem refines_withDeclarations (ps : List Placement) (i : Nat) (t : Tree) :
    Refines (withDeclarations ps i t) [t] := by
  have hbare : ∀ qs : List Placement,
      Refines (qs.map fun p => .declare p.var none none) ([] : List Tree) := by
    intro qs
    induction qs with
    | nil => exact .refl _
    | cons q qs ih => exact ⟨fun s hs => ⟨trivial, ih.jumps s hs⟩, ih.marks⟩
  have hlast : Refines [if (ps.filter (·.index == i)).any (·.inPlace) then declared t else t] [t] := by
    split
    · exact (refines_declared t).refines
    · exact .refl _
  exact (hbare _).append hlast

section

variable (slots : UInt16)

mutual

theorem refines_declareNested (bound : List VarKey) : (t : Tree) → RefinesOne (declareNested slots bound t) t
  | .ifElse _ t b => .ifElse _ _ (refines_declareIn _ _ 0 t) (refines_declareBlock bound b)
  | .whileLoop _ b => .whileLoop _ _ (refines_declareIn _ _ 0 b)
  | .doWhile b _ => .doWhile _ _ (refines_declareIn _ _ 0 b)
  | .synchronized _ b => .synchronized _ _ (refines_declareIn _ _ 0 b)
  | .forLoop _ _ _ b => .forLoop _ _ (.refl _) (.refl _) (refines_declareIn _ _ 0 b)
  | .forEach _ _ b => .forEach _ _ _ _ (refines_declareIn _ _ 0 b)
  | .switch _ _ arms => .switch _ _ _ _ (refines_declareArms bound arms)
  | .tryCatch _ b cs c =>
      .tryCatch _ (refines_declareIn _ _ 0 b) (refines_declareClauses bound cs)
        (refines_declareBlock bound c)
  | .labeled name t => .labeled name (refines_declareNested bound t)
  | .simple _ | .declare .. | .breakTo _ | .continueTo _ | .label _ | .goto _ | .comment _ => .refl _

theorem refines_declareIn (bound : List VarKey) (ps : List Placement) :
    (i : Nat) → (ts : List Tree) → Refines (declareIn slots bound ps i ts) ts
  | _, [] => .refl _
  | i, t :: ts =>
      ((refines_declareNested bound t).refines.trans (refines_withDeclarations ps i _)).append
        (refines_declareIn bound ps (i + 1) ts)

theorem refines_declareBlock (bound : List VarKey) :
    (b : Option (List Tree)) → Refines ((declareBlock slots bound b).getD []) (b.getD [])
  | none => .refl _
  | some ts => refines_declareIn _ _ 0 ts

theorem refines_declareArms (bound : List VarKey) : (arms : List (Arm × List Tree)) →
    Refines ((declareArms slots bound arms).flatMap (·.2)) (arms.flatMap (·.2))
  | [] => .refl _
  | (_, b) :: rest => (refines_declareIn _ _ 0 b).append (refines_declareArms bound rest)

theorem refines_declareClauses (bound : List VarKey) : (cs : List (Clause × List Tree)) →
      Refines ((declareClauses slots bound cs).flatMap (·.2)) (cs.flatMap (·.2))
  | [] => .refl _
  | (_, b) :: rest => (refines_declareIn _ _ 0 b).append (refines_declareClauses bound rest)

end

end

theorem refines_dropLastReturn (returnType : ErasedType) (ts : List Tree) :
    Refines (dropLastReturn returnType ts) ts := by
  unfold dropLastReturn
  split
  · exact .of_sublist (List.dropLast_sublist ts)
  · exact .refl _

/-! ## All passes -/

theorem refines_sugar (ctx : SugarContext) (o : SugarOptions) (body : MethodBody) :
    Refines (sugar ctx o body).1.stmts body.stmts := by
  refine Refines.trans ?_ (refines_dropLastReturn ctx.returnType _)
  refine Refines.trans ?_ (refines_declareIn ctx.paramSlots _ _ 0 _)
  exact undeclared_related (R := fun ts us => Refines us ts) .refl (fun h h' => h.trans h')
    (fun hf => .eachList fun ts => (hf ts).refines) ctx o body.stmts

end Sugar

/-! ## Method bodies -/

/-- Every jump in a method body has its construct, no label stands in front of two statements, and
there is a `goto` only in an approximate body. -/
structure MethodBody.WellScoped (body : MethodBody) : Prop where
  jumps : ScopedList .outside body.stmts
  labels : ((Tree.nodesList body.stmts).filterMap Tree.frontLabel?).Nodup
  gotos : body.approximate = false → ∀ name, .goto name ∉ Tree.nodesList body.stmts

theorem MethodBody.WellScoped.refines {body body' : MethodBody} (h : body.WellScoped)
    (hr : Refines body'.stmts body.stmts) (ha : body'.approximate = body.approximate) : body'.WellScoped where
  jumps := hr.jumps _ h.jumps
  labels := by
    have hn := h.labels
    rw [Tree.filterMap_nodesList Tree.frontLabel?_eq] at hn ⊢
    exact (hr.marks.filterMap _).nodup hn
  gotos hnot name hn := by
    refine h.gotos (ha ▸ hnot) name ?_
    exact Tree.goto_mem_marks.mpr (hr.marks.subset (Tree.goto_mem_marks.mp hn))

theorem Walk.wellMade_run (l : Layout) (entry : BlockId) :
    Walk.WellMade [] .initial (Walk.run l entry).2 (Walk.run l entry).1 := by
  by_cases hb : l.isBlock entry = true
  · obtain ⟨reached, hr⟩ := Walk.run_region l entry hb
    exact hr.extends.wellMade
  · unfold Walk.run
    rw [if_neg hb]
    exact .nil

theorem wellScoped_structureMethod (cf : ControlFlow) (blocks : List Block) (p : Protection) (fold : Bool) :
    (structureMethod cf blocks p fold).WellScoped := by
  rw [Structure.structureMethod_eq]
  have hw := Walk.wellMade_run (Structure.walked cf blocks p fold) cf.entry
  refine ⟨hw.jumps, ?_, fun hnot name hn => ?_⟩
  · rw [Tree.filterMap_nodesList Tree.frontLabel?_eq]
    exact hw.fresh.nodup
  · exact Bool.noConfusion (hnot.symm.trans (hw.fresh.gotos name (Tree.goto_mem_marks.mp hn)))

/-- Jumps are well scoped in every structured body, and whichever passes are run over it. -/
theorem wellScoped_sugar (cf : ControlFlow) (blocks : List Block) (p : Protection) (fold : Bool)
    (ctx : SugarContext) (o : SugarOptions) : (structureMethod cf blocks p fold).WellScoped ∧
      (sugar ctx o (structureMethod cf blocks p fold)).1.WellScoped := by
  have h := wellScoped_structureMethod cf blocks p fold
  refine ⟨h, h.refines ?_ rfl⟩
  exact Sugar.refines_sugar ctx o _

end JvmLift
