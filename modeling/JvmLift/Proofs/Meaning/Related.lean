import JvmLift.Proofs.Meaning.Source

/-!
# Runs from related states

If what single nodes do comes to the same from related states, two runs from related states execute the same
statements, end in the same way and leave related states.
-/
namespace JvmLift.Source

open List

universe u v

variable {σ ν : Type u} {K : Located → Prop} {S : σ → σ → Prop}

/-- The same was executed, all of it statements of which `K` holds, and the states are related. -/
structure Outcome.Related (K : Located → Prop) (S : σ → σ → Prop) (r q : Outcome σ ν) : Prop where
  trace : r.trace = q.trace
  executed : ∀ s ∈ q.trace, K s
  ending : r.ending = q.ending
  state : S r.state q.state

/-- From related states it gives the same and leaves related states. -/
def Alike {α : Type v} (S : σ → σ → Prop) (f : σ → α × σ) : Prop :=
  ∀ x y, S x y → (f x).1 = (f y).1 ∧ S (f x).2 (f y).2

/-! ## Laws of outcomes -/

variable {f g : σ → Outcome σ ν}

namespace Outcome.Related

variable {r q : Outcome σ ν} {x y : σ}

theorem silent (h : S x y) (e : Ending ν) : Related K S ⟨[], x, e⟩ ⟨[], y, e⟩ := ⟨rfl, by simp, rfl, h⟩

variable (h : r.Related K S q)

include h

theorem behind {t} (ht : ∀ s ∈ t, K s) : (r.behind t).Related K S (q.behind t) where
  trace := congrArg (t ++ ·) h.trace
  executed s hs := (mem_append.mp hs).elim (ht s) (h.executed s)
  ending := h.ending
  state := h.state

theorem andThen (hf : ∀ x y, S x y → (f x).Related K S (g y)) : (r.andThen f).Related K S (q.andThen g) := by
  by_cases hn : q.ending = .normal
  · rw [andThen_of_normal hn, andThen_of_normal (h.ending.trans hn), h.trace]
    exact (hf _ _ h.state).behind h.executed
  · rw [andThen_of_ne hn, andThen_of_ne (by rwa [h.ending])]
    exact h

theorem take (taken : Ending ν → Bool) : (r.take taken).Related K S (q.take taken) := by
  unfold Outcome.take
  rw [h.ending]
  split
  · exact ⟨h.trace, h.executed, rfl, h.state⟩
  · exact h

theorem handle {f g} (hf : ∀ v x y, S x y → (f v x).Related K S (g v y)) : (r.handle f).Related K S (q.handle g) := by
  unfold Outcome.handle
  rw [h.ending, h.trace]
  split
  · exact (hf _ _ _ h.state).behind h.executed
  · exact h

theorem finish (hf : ∀ x y, S x y → (f x).Related K S (g y)) : (r.finish f).Related K S (q.finish g) := by
  have hlast := (hf _ _ h.state).behind h.executed
  unfold Outcome.finish
  rw [h.ending, h.trace]
  split
  · exact h
  · exact h
  · dsimp only
    rw [hlast.ending]
    split
    · exact ⟨hlast.trace, hlast.executed, rfl, hlast.state⟩
    · exact hlast

end Outcome.Related

variable {x y : σ}

theorem related_given {α} {c : σ → Except ν α × σ} (hc : Alike S c) {f g}
    (hf : ∀ a x y, S x y → (f a x).Related K S (g a y)) (h : S x y) : (given (c x) f).Related K S (given (c y) g) := by
  obtain ⟨hv, hs⟩ := hc x y h
  unfold given
  rw [hv]
  split
  · exact hf _ _ _ hs
  · exact .silent hs _

theorem related_rounds (hf : ∀ x y, S x y → (f x).Related K S (g y)) (n : Nat) (h : S x y) :
    (rounds f n x).Related K S (rounds g n y) := by
  induction n generalizing x y with
  | zero => exact .silent h _
  | succ n ih => exact (hf x y h).andThen fun _ _ => ih

theorem related_elements {next} (hnext : ∀ c, Alike S (next c))
    (hf : ∀ x y, S x y → (f x).Related K S (g y)) (n : Nat) (cursor : ν) (h : S x y) :
    (elements next f n cursor x).Related K S (elements next g n cursor y) := by
  induction n generalizing cursor x y with
  | zero => exact .silent h _
  | succ n ih =>
      refine related_given (hnext cursor) (fun c x y hxy => ?_) h
      cases c with
      | none => exact .silent hxy _
      | some cursor => exact (hf x y hxy).andThen fun _ _ => ih cursor

/-! ## Statements -/

def Actions.Respects (A : Actions σ ν) (K : Located → Prop) (S : σ → σ → Prop) : Tree → Prop
  | .simple s => K s ∧ Alike S (A.run s)
  | .declare v init _ => Alike S (A.declare v init)
  | .ifElse e _ _ | .whileLoop e _ | .doWhile _ e | .forLoop _ e _ _ => Alike S (A.holds e)
  | .forEach v e _ => Alike S (A.value e) ∧ (∀ c, Alike S (A.iterate c)) ∧ ∀ c, Alike S (A.next v c)
  | .switch _ e _ => Alike S (A.value e)
  | .synchronized e _ => Alike S (A.value e) ∧ (∀ v, Alike S (A.lock v)) ∧ ∀ v, Alike S (A.unlock v)
  | .tryCatch _ _ clauses _ => ∀ c ∈ clauses, ∀ v x y, S x y → S (A.caught c.1 v x) (A.caught c.1 v y)
  | _ => True

variable {A : Actions σ ν} {n : Nat}

theorem related_simple {s} (h : A.Respects K S (.simple s)) (hxy : S x y) :
    (A.simple s x).Related K S (A.simple s y) := by
  obtain ⟨hv, hs⟩ := h.2 x y hxy
  have hk : ∀ s' ∈ [s], K s' := by simpa using h.1
  unfold Actions.simple
  cases hx : A.run s x with
  | mk e x' =>
      cases hy : A.run s y with
      | mk e' y' =>
          simp only [hx, hy] at hv hs
          subst hv
          cases e <;> exact ⟨rfl, hk, rfl, hs⟩

theorem related_declaration {v} {init : Option Expr} {line} (h : A.Respects K S (.declare v init line)) (hxy : S x y) :
    (A.declaration v init x).Related K S (A.declaration v init y) :=
  related_given h (fun _ _ _ hs => .silent hs _) hxy

theorem related_test {e} (h : Alike S (A.holds e)) (hxy : S x y) : (A.test e x).Related K S (A.test e y) :=
  related_given h (fun b _ _ hs => .silent hs (if b then .normal else .broke none)) hxy

theorem related_part {t} (h : ∀ t' ∈ Tree.nodesPart t, A.Respects K S t') (hxy : S x y) :
    (A.part t x).Related K S (A.part t y) := by
  unfold Actions.part
  split
  · exact .silent hxy _
  · exact related_simple (h _ (mem_singleton_self _)) hxy
  · exact related_declaration (h _ (mem_singleton_self _)) hxy
  · exact .silent hxy _

mutual

theorem related_exec (own : List String) : (t : Tree) → (∀ t' ∈ t.nodes, A.Respects K S t') → {x y : σ} → S x y →
    (exec A n own t x).Related K S (exec A n own t y)
  | .simple s, h, _, _, hxy => related_simple (h _ mem_cons_self) hxy
  | .declare .., h, _, _, hxy => related_declaration (h _ mem_cons_self) hxy
  | .ifElse e t b, h, _, _, hxy => by
      simp only [Tree.nodes, mem_cons, mem_append, or_imp, forall_and, forall_eq] at h
      refine related_given h.1 (fun c _ _ hs => ?_) hxy
      cases c with
      | true => exact related_execList t h.2.1 hs
      | false => exact related_execBlock b h.2.2 hs
  | .whileLoop e b, h, _, _, hxy => by
      simp only [Tree.nodes, mem_cons, or_imp, forall_and, forall_eq] at h
      refine (related_rounds (fun _ _ hs => ?_) n hxy).take _
      exact (related_test h.1 hs).andThen fun _ _ hs => (related_execList b h.2 hs).take _
  | .doWhile b e, h, _, _, hxy => by
      simp only [Tree.nodes, mem_cons, or_imp, forall_and, forall_eq] at h
      refine (related_rounds (fun _ _ hs => ?_) n hxy).take _
      exact ((related_execList b h.2 hs).take _).andThen fun _ _ hs => related_test h.1 hs
  | .forLoop i e u b, h, _, _, hxy => by
      simp only [Tree.nodes, mem_cons, mem_append, or_imp, forall_and, forall_eq] at h
      obtain ⟨he, ⟨hi, hu⟩, hb⟩ := h
      refine (related_part hi hxy).andThen fun _ _ hs => (related_rounds (fun _ _ hs => ?_) n hs).take _
      refine (related_test he hs).andThen fun _ _ hs => ?_
      exact ((related_execList b hb hs).take _).andThen fun _ _ hs => related_part hu hs
  | .forEach v e b, h, _, _, hxy => by
      simp only [Tree.nodes, mem_cons, or_imp, forall_and, forall_eq] at h
      obtain ⟨⟨he, hiterate, hnext⟩, hb⟩ := h
      refine related_given he (fun c _ _ hs => related_given (hiterate c) (fun cursor _ _ hs => ?_) hs) hxy
      exact (related_elements hnext (fun _ _ hs => (related_execList b hb hs).take _) n cursor hs).take _
  | .switch k e arms, h, _, _, hxy => by
      simp only [Tree.nodes, mem_cons, or_imp, forall_and, forall_eq] at h
      exact related_given h.1 (fun v _ _ hs => (related_execArms arms h.2 (A.entry k v (arms.map (·.1))) hs).take _) hxy
  | .tryCatch shape b clauses cleanup, h, _, _, hxy => by
      simp only [Tree.nodes, mem_cons, mem_append, or_imp, forall_and, forall_eq] at h
      obtain ⟨hcaught, ⟨hb, hclauses⟩, hcleanup⟩ := h
      refine .finish ?_ fun _ _ hs => related_execBlock cleanup hcleanup hs
      exact (related_execList b hb hxy).handle fun v _ _ hs => related_execClauses clauses hcaught hclauses v hs
  | .synchronized e b, h, _, _, hxy => by
      simp only [Tree.nodes, mem_cons, or_imp, forall_and, forall_eq] at h
      obtain ⟨⟨he, hlock, hunlock⟩, hb⟩ := h
      refine related_given he (fun v _ _ hs => related_given (hlock v) (fun _ _ _ hs => ?_) hs) hxy
      exact (related_execList b hb hs).finish fun _ _ hs =>
        related_given (hunlock v) (fun _ _ _ hs => .silent hs _) hs
  | .labeled name t, h, _, _, hxy =>
      (related_exec (name :: own) t (fun t' ht' => h t' (mem_cons_of_mem _ ht')) hxy).take _
  | .breakTo _, _, _, _, hxy | .continueTo _, _, _, _, hxy | .label _, _, _, _, hxy | .comment _, _, _, _, hxy
  | .goto _, _, _, _, hxy => .silent hxy _

theorem related_execBlock : (b : Option (List Tree)) → (∀ t' ∈ Tree.nodesBlock b, A.Respects K S t') → {x y : σ} →
    S x y → (execBlock A n b x).Related K S (execBlock A n b y)
  | none, _, _, _, hxy => .silent hxy _
  | some ts, h, _, _, hxy => related_execList ts h hxy

theorem related_execList : (ts : List Tree) → (∀ t' ∈ Tree.nodesList ts, A.Respects K S t') → {x y : σ} →
    S x y → (execList A n ts x).Related K S (execList A n ts y)
  | [], _, _, _, hxy => .silent hxy _
  | t :: ts, h, _, _, hxy => by
      simp only [Tree.nodesList, mem_append, or_imp, forall_and] at h
      exact (related_exec [] t h.1 hxy).andThen fun _ _ hs => related_execList ts h.2 hs

theorem related_execArms : (arms : List (Arm × List Tree)) → (∀ t' ∈ Tree.nodesArms arms, A.Respects K S t') →
    (skip : Nat) → {x y : σ} → S x y → (execArms A n arms skip x).Related K S (execArms A n arms skip y)
  | [], _, _, _, _, hxy => .silent hxy _
  | (arm, b) :: rest, h, skip, _, _, hxy => by
      simp only [Tree.nodesArms, mem_append, or_imp, forall_and] at h
      cases skip with
      | succ skip => exact related_execArms rest h.2 skip hxy
      | zero =>
          refine (related_execList b h.1 hxy).andThen fun _ _ hs => ?_
          split
          · exact related_execArms rest h.2 0 hs
          · exact .silent hs _

theorem related_execClauses : (clauses : List (Clause × List Tree)) →
    (∀ c ∈ clauses, ∀ v x y, S x y → S (A.caught c.1 v x) (A.caught c.1 v y)) →
    (∀ t' ∈ Tree.nodesClauses clauses, A.Respects K S t') → (v : ν) → {x y : σ} → S x y →
      (execClauses A n clauses v x).Related K S (execClauses A n clauses v y)
  | [], _, _, _, _, _, hxy => .silent hxy _
  | (c, b) :: rest, hcaught, h, v, _, _, hxy => by
      simp only [Tree.nodesClauses, mem_append, or_imp, forall_and] at h
      simp only [execClauses]
      split
      · exact related_execList b h.1 (hcaught (c, b) mem_cons_self v _ _ hxy)
      · exact related_execClauses rest (fun c hc => hcaught c (mem_cons_of_mem _ hc)) h.2 v hxy

end

/-! ## Lists that start with a simple statement -/

variable {s : Located} {x y : σ} {d : ν}

theorem execList_of_normal (h : A.simple s x = ⟨[s], y, .normal⟩) (ts : List Tree) :
    execList A n (.simple s :: ts) x = (execList A n ts y).behind [s] := by
  simp only [execList, exec, h, Outcome.andThen]

theorem execList_of_threw (h : A.simple s x = ⟨[s], y, .threw d⟩) (ts : List Tree) :
    execList A n (.simple s :: ts) x = ⟨[s], y, .threw d⟩ := by
  simp only [execList, exec, h, Outcome.andThen]

end JvmLift.Source
