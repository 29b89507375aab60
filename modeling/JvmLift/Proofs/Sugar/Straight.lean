import JvmLift.Proofs.Sugar.Passes

/-!
# Straight statements stay straight

The passes make loops out of loops and switches out of switches. Where there is no loop and no region,
none of them makes one, and neither do declarations.
-/
namespace JvmLift.Sugar

open List

open JvmLift.Tree (nodesList Straight)

variable {t u : Tree} {ts us : List Tree}

/-! ## Passes -/

theorem Recasts.straight (h : Recasts t u) (ht : Straight t.nodes) : Straight u.nodes := by
  cases h with
  | forEach | forLoop => cases ht _ mem_cons_self
  | switch k k' e e' arms hf =>
      simp only [Straight, Tree.nodes, Tree.nodesArms_eq, forall_mem_cons, flatMap_map, hf] at ht ⊢
      exact ⟨rfl, ht.2⟩

theorem Rewrites.straight (h : Rewrites t u) (ht : Straight t.nodes) : Straight u.nodes := by
  cases h with
  | refl => exact ht
  | simple => exact forall_mem_singleton.mpr rfl
  | mapOwn t f =>
      refine Straight.compositional.mapOwn (fun t ht => ?_) t ht
      have hown : (t.mapOwn f).isStraight = t.isStraight := by
        cases t with
        | forLoop i e u b => cases i <;> cases u <;> rfl
        | _ => rfl
      simpa [Straight, hown] using ht
  | lastOfTry => cases ht _ mem_cons_self
  | recast name h =>
      cases name with
      | none => exact h.straight ht
      | some name => exact forall_mem_cons.mpr ⟨rfl, h.straight (forall_mem_cons.mp ht).2⟩

theorem Passes.straight (h : Passes ts us) (hts : Straight (nodesList ts)) : Straight (nodesList us) := by
  induction h with
  | nil => exact hts
  | drop t h ih => exact ih (forall_mem_append.mp hts).2
  | cons ht h ih =>
      have hts := forall_mem_append.mp hts
      exact forall_mem_append.mpr ⟨ht.straight hts.1, ih hts.2⟩
  | trans h h' ih ih' => exact ih' (ih hts)

/-! ## All passes -/

theorem straight_dropLastReturn (returnType : ErasedType) (h : Straight (nodesList ts)) :
    Straight (nodesList (dropLastReturn returnType ts)) := by
  unfold dropLastReturn
  split
  · rename_i hlast
    obtain ⟨front, rfl⟩ := getLast?_eq_some_iff.mp hlast
    rw [Tree.nodesList_append] at h
    exact dropLast_concat ▸ (forall_mem_append.mp h).1
  · exact h

theorem straight_sugar (ctx : SugarContext) (o : SugarOptions) {body} (h : Straight (nodesList body.stmts)) :
    Straight (nodesList (sugar ctx o body).1.stmts) := by
  refine straight_dropLastReturn _ (related_declareIn Straight.compositional (fun v _ => ?_) _ _ 0 _ ?_)
  · exact forall_mem_singleton.mpr rfl
  · exact undeclared_related (R := fun ts us => Straight (nodesList ts) → Straight (nodesList us)) (fun _ => id)
      (fun h h' => h' ∘ h)
      (fun hf ts => Straight.compositional.eachList (fun us _ => (hf us).straight) ts trivial) ctx o _ h

end JvmLift.Sugar
