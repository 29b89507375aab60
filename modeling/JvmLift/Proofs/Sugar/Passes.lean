import JvmLift.Proofs.Sugar.Patterns

/-!
# What the passes do to a list

`Rewrites` says which statement may come in place of which in a pass, and `Passes` says the same of lists. Whatever
these keep, every pass keeps.
-/
namespace JvmLift

open List

variable {t : Tree}

namespace Sugar

/-! ## One statement -/

/-- A loop or a switch in another form. -/
inductive Recasts : Tree → Tree → Prop where
  | forEach {body body' : List Tree} (test : Expr) (v : LocalVar) (e : Expr) (h : body'.Sublist body) :
      Recasts (.whileLoop test body) (.forEach v e body')
  | forLoop {body body' : List Tree} (test : Expr) (init update : Located) (h : body'.Sublist body) :
      Recasts (.whileLoop test body) (.forLoop (some (.simple init)) test (some (.simple update)) body')
  | switch (k k' : SwitchKind) (e e' : Expr) (arms : List (Arm × List Tree))
      {f : Arm × List Tree → Arm × List Tree} (hf : ∀ arm, (f arm).2 = arm.2) :
      Recasts (.switch k e arms) (.switch k' e' (arms.map f))

/-- The second statement may come in place of the first. -/
inductive Rewrites : Tree → Tree → Prop where
  | refl (t : Tree) : Rewrites t t
  | simple (t : Tree) (s : Located) : Rewrites t (.simple s)
  | mapOwn (t : Tree) (f : Expr → Expr) : Rewrites t (t.mapOwn f)
  | lastOfTry (shape : TryShape) (front : List Tree) (last : Tree) (s : Located)
      (cleanup : Option (List Tree)) :
      Rewrites (.tryCatch shape (front ++ [last]) [] cleanup)
        (.tryCatch shape (front ++ [.simple s]) [] cleanup)
  | recast (name : Option String) {t u : Tree} (h : Recasts t u) :
      Rewrites (relabeled name t) (relabeled name u)

variable {u : Tree}

theorem rewrites_inPlaceOf (t u : Tree) (stmt : Stmt) : Rewrites t (inPlaceOf u stmt) := by
  unfold inPlaceOf
  split <;> exact .simple _ _

theorem rewrites_ternaryStore (h : ternaryStore? t = some u) : Rewrites t u := by
  unfold ternaryStore? at h
  split at h
  · simp only [Option.bind_eq_bind, Option.bind_eq_some_iff] at h
    obtain ⟨_, _, _, _, h⟩ := h
    split at h <;> cases h
    exact rewrites_inPlaceOf _ _ _
  · cases h

theorem rewrites_retypeBoolean (returnType : ErasedType) (t : Tree) : Rewrites t (retypeBoolean returnType t) := by
  unfold retypeBoolean
  split
  · exact .simple _ _
  · exact .mapOwn _ _

theorem rewrites_asReturn {v} (h : asReturn? v t = some u) : Rewrites t u := by
  unfold asReturn? at h
  split at h
  · obtain ⟨body', hbody, rfl⟩ := Option.map_eq_some_iff.mp h
    simp only [lastStoreAsReturn?, Option.bind_eq_bind, Option.bind_eq_some_iff, Option.pure_def,
      Option.some.injEq] at hbody
    obtain ⟨last, hlast, t, ht, rfl⟩ := hbody
    obtain ⟨front, rfl⟩ := getLast?_eq_some_iff.mp hlast
    obtain ⟨_, _, _, _, _, -, -, rfl⟩ := storeAsReturn?_some ht
    rw [dropLast_concat]
    exact .lastOfTry _ _ _ _ _
  · obtain ⟨_, _, _, _, _, -, -, rfl⟩ := storeAsReturn?_some h
    exact .simple _ _

variable {uses : VarUses} {init looped : Tree}

theorem rewrites_iteratorLoop (h : iteratorLoop? uses init looped = some t) : Rewrites looped t := by
  obtain ⟨w, -, rfl, rfl⟩ := iteratorLoop?_some h
  exact .recast _ (.forEach _ _ _ (sublist_cons_self _ _))

theorem rewrites_arrayLoop {t1 t2 t3 t4} (h : arrayLoop? uses t1 t2 t3 t4 = some t) : Rewrites t4 t := by
  obtain ⟨w, -, -, rfl, rfl⟩ := arrayLoop?_some h
  exact .recast _ (.forEach _ _ _ ((sublist_append_left _ _).cons _))

theorem rewrites_countingLoop (h : countingLoop? init looped = some t) : Rewrites looped t := by
  obtain ⟨name, test, front, start, update, -, rfl, -, rfl⟩ := countingLoop?_some h
  exact .recast _ (.forLoop _ _ _ (sublist_append_left _ _))

theorem rewrites_enumSwitch (r : Resolver) (t : Tree) : Rewrites t (enumSwitch r t) := by
  unfold enumSwitch
  split
  · rename_i hswitch
    split
    · split
      · rw [eq_relabeled hswitch]
        refine .recast _ (.switch _ _ _ _ _ ?_)
        exact fun _ => rfl
      · exact .refl _
    · exact .refl _
  · exact .refl _

theorem rewrites_stringSwitch {t1 t2 t3 t4} (h : stringSwitch? uses t1 t2 t3 t4 = some t) : Rewrites t4 t := by
  obtain ⟨w, -, -, rfl, rfl⟩ := stringSwitch?_some h
  exact .recast _ (.switch _ _ _ _ _ fun _ => rfl)

/-! ## Lists -/

/-- The second list comes from the first: statements are dropped and others put in their place. -/
inductive Passes : List Tree → List Tree → Prop where
  | nil : Passes [] []
  | drop (t : Tree) {ts us : List Tree} (h : Passes ts us) : Passes (t :: ts) us
  | cons {t u : Tree} {ts us : List Tree} (ht : Rewrites t u) (h : Passes ts us) : Passes (t :: ts) (u :: us)
  | trans {ts us vs : List Tree} (h : Passes ts us) (h' : Passes us vs) : Passes ts vs

namespace Passes

theorem map {f} (hf : ∀ t, Rewrites t (f t)) (ts : List Tree) : Passes ts (ts.map f) := by
  induction ts with
  | nil => exact .nil
  | cons t ts ih => exact .cons (hf t) ih

theorem refl (ts : List Tree) : Passes ts ts := by
  induction ts with
  | nil => exact .nil
  | cons t ts ih => exact .cons (.refl t) ih

theorem collapseTernaries (ts : List Tree) : Passes ts (collapseTernaries ts) := by
  refine .map (fun t => ?_) ts
  cases h : ternaryStore? t with
  | none => exact .refl t
  | some u => exact rewrites_ternaryStore h

theorem inlineFrom (uses : VarUses) (t : Tree) (ts : List Tree) : Passes (t :: ts) (inlineFrom uses t ts) := by
  induction ts generalizing t with
  | nil => exact .refl _
  | cons next rest ih =>
      rw [Sugar.inlineFrom]
      split
      · exact .drop t (.trans (.cons (.mapOwn next _) (.refl rest)) (ih _))
      · exact .cons (.refl t) (ih next)

theorem inlineStackVars (uses : VarUses) (ts : List Tree) : Passes ts (inlineStackVars uses ts) := by
  cases ts with
  | nil => exact .nil
  | cons t rest => exact inlineFrom uses t rest

theorem retypeBooleans (returnType : ErasedType) (ts : List Tree) :
    Passes ts (retypeBooleans returnType ts) := .map (rewrites_retypeBoolean returnType) ts

theorem returnFrom (uses : VarUses) (t : Tree) (ts : List Tree) : Passes (t :: ts) (returnFrom uses t ts) := by
  induction ts generalizing t with
  | nil => exact .refl _
  | cons next rest ih =>
      rw [Sugar.returnFrom]
      split
      · rename_i u hu
        obtain ⟨v, -, hu⟩ := Option.bind_eq_some_iff.mp hu
        exact .trans (.cons (rewrites_asReturn hu) (.drop next (.refl rest))) (ih u)
      · exact .cons (.refl t) (ih next)

theorem collapseReturns (uses : VarUses) (ts : List Tree) : Passes ts (collapseReturns uses ts) := by
  cases ts with
  | nil => exact .nil
  | cons t rest => exact returnFrom uses t rest

theorem recoverForEach (uses : VarUses) (ts : List Tree) : Passes ts (recoverForEach uses ts) := by
  fun_induction Sugar.recoverForEach uses ts with
  | case1 t1 t2 t3 t4 rest t h ih => exact .drop t1 (.cons (rewrites_iteratorLoop h) ih)
  | case2 t1 t2 t3 t4 rest h t h' ih =>
      exact .drop t1 (.drop t2 (.drop t3 (.cons (rewrites_arrayLoop h') ih)))
  | case3 t1 t2 t3 t4 rest h h' ih => exact .cons (.refl t1) ih
  | case4 t1 t2 rest t h h' ih => exact .drop t1 (.cons (rewrites_iteratorLoop h') ih)
  | case5 t1 t2 rest t h ih => exact .cons (.refl t1) ih
  | case6 ts => exact .refl ts

theorem countingFrom (t : Tree) (ts : List Tree) : Passes (t :: ts) (countingFrom t ts) := by
  induction ts generalizing t with
  | nil => exact .refl _
  | cons next rest ih =>
      rw [Sugar.countingFrom]
      split
      · rename_i u hu
        exact .drop t (.trans (.cons (rewrites_countingLoop hu) (.refl rest)) (ih u))
      · exact .cons (.refl t) (ih next)

theorem recoverFor (ts : List Tree) : Passes ts (recoverFor ts) := by
  cases ts with
  | nil => exact .nil
  | cons t rest => exact countingFrom t rest

theorem recoverEnums (r : Resolver) (ts : List Tree) : Passes ts (recoverEnums r ts) :=
  .map (rewrites_enumSwitch r) ts

theorem recoverStrings (uses : VarUses) (ts : List Tree) : Passes ts (recoverStrings uses ts) := by
  fun_induction Sugar.recoverStrings uses ts with
  | case1 t1 t2 t3 t4 rest t h ih =>
      exact .drop t1 (.drop t2 (.drop t3 (.cons (rewrites_stringSwitch h) ih)))
  | case2 t1 t2 t3 t4 rest h ih => exact .cons (.refl t1) ih
  | case3 ts => exact .refl ts

end Passes

/-! ## Declarations -/

theorem map_var_declareClauses (slots : UInt16) (bound : List VarKey) (cs : List (Clause × List Tree)) :
    (declareClauses slots bound cs).map (·.1.var) = cs.map (·.1.var) := by
  induction cs with
  | nil => rfl
  | cons c cs ih => simp [declareClauses, ih]

section

open JvmLift.Tree (nodesList nodesBlock nodesArms nodesClauses)

variable {Q R} (hR : Tree.Compositional Q R)

include hR

theorem related_declared (t : Tree) : R t.nodes (declared t).nodes := by
  fun_induction declared t with
  | case1 i e u b ih => exact hR.head rfl rfl rfl (hR.append (hR.append ih (hR.refl _)) (hR.refl _))
  | case2 name t ih => exact hR.head rfl rfl rfl ih
  | case3 v value => exact hR.node rfl rfl rfl
  | case4 t => exact hR.refl _

theorem related_withDeclarations (hbare : ∀ v, R [] [.declare v none none]) (ps : List Placement) (i : Nat) (t : Tree) :
    R t.nodes (nodesList (withDeclarations ps i t)) := by
  have ht : R t.nodes (nodesList [if (ps.filter (·.index == i)).any (·.inPlace) then declared t else t]) := by
    simp only [nodesList, append_nil]
    split
    · exact related_declared hR t
    · exact hR.refl _
  unfold withDeclarations
  lift_lets
  intro here bare
  induction bare.reverse with
  | nil => exact ht
  | cons p rest ih => exact hR.append (hbare p.var) ih

variable {slots : UInt16}

mutual

theorem related_declareNested (hbare : ∀ v, R [] [.declare v none none]) (bound : List VarKey) :
    (t : Tree) → R t.nodes (declareNested slots bound t).nodes
  | .ifElse _ t b => hR.head rfl rfl rfl (hR.append (related_declareIn hbare _ _ 0 t) (related_declareBlock hbare bound b))
  | .whileLoop _ b | .doWhile b _ | .synchronized _ b | .forEach _ _ b =>
      hR.head rfl rfl rfl (related_declareIn hbare _ _ 0 b)
  | .forLoop _ _ _ b => hR.head rfl rfl rfl (hR.append (hR.refl _) (related_declareIn hbare _ _ 0 b))
  | .switch _ _ arms => hR.head rfl rfl rfl (related_declareArms hbare bound arms)
  | .tryCatch _ b cs c =>
      hR.head rfl (map_var_declareClauses slots bound cs) rfl (hR.append (hR.append (related_declareIn hbare _ _ 0 b)
        (related_declareClauses hbare bound cs)) (related_declareBlock hbare bound c))
  | .labeled _ t => hR.head rfl rfl rfl (related_declareNested hbare bound t)
  | .simple _ | .declare .. | .breakTo _ | .continueTo _ | .label _ | .goto _ | .comment _ => hR.refl _

theorem related_declareIn (hbare : ∀ v, R [] [.declare v none none]) (bound : List VarKey) (ps : List Placement) :
    (i : Nat) →
    (ts : List Tree) → R (nodesList ts) (nodesList (declareIn slots bound ps i ts))
  | _, [] => hR.nil
  | i, t :: ts => by
      rw [declareIn, Tree.nodesList_append]
      exact hR.append (hR.trans (related_declareNested hbare bound t) (related_withDeclarations hR hbare ps i _))
        (related_declareIn hbare bound ps (i + 1) ts)

theorem related_declareBlock (hbare : ∀ v, R [] [.declare v none none]) (bound : List VarKey) : (b : Option (List Tree)) →
    R (nodesBlock b) (nodesBlock (declareBlock slots bound b))
  | none => hR.nil
  | some ts => related_declareIn hbare _ _ 0 ts

theorem related_declareArms (hbare : ∀ v, R [] [.declare v none none]) (bound : List VarKey) :
    (arms : List (Arm × List Tree)) →
    R (nodesArms arms) (nodesArms (declareArms slots bound arms))
  | [] => hR.nil
  | (_, b) :: rest => hR.append (related_declareIn hbare _ _ 0 b) (related_declareArms hbare bound rest)

theorem related_declareClauses (hbare : ∀ v, R [] [.declare v none none]) (bound : List VarKey) :
    (cs : List (Clause × List Tree)) →
    R (nodesClauses cs) (nodesClauses (declareClauses slots bound cs))
  | [] => hR.nil
  | (_, b) :: rest => hR.append (related_declareIn hbare _ _ 0 b) (related_declareClauses hbare bound rest)

end

end

/-! ## All passes -/

/-- The body that is handed to the pass that declares variables. -/
def undeclared (ctx : SugarContext) (o : SugarOptions) (stmts : List Tree) : List Tree :=
  when o.stringSwitch strings (enums ctx o (valuesAndLoops ctx o stmts))

theorem sugar_stmts (ctx : SugarContext) (o : SugarOptions) (body : MethodBody) : (sugar ctx o body).1.stmts =
      dropLastReturn ctx.returnType (declareAll ctx.paramSlots (undeclared ctx o body.stmts)) := rfl

section

variable {R : List Tree → List Tree → Prop} (hrefl : ∀ ts, R ts ts)
  (htrans : ∀ {ts us vs}, R ts us → R us vs → R ts vs)
  (heach : ∀ {f : List Tree → List Tree}, (∀ ts, Passes ts (f ts)) → ∀ ts, R ts (Tree.eachList f ts))

include hrefl in
theorem when_related (on : Bool) {pass} (h : ∀ ts, R ts (pass ts)) (ts : List Tree) : R ts (when on pass ts) := by
  unfold when
  split
  · exact h ts
  · exact hrefl ts

include hrefl htrans heach in
theorem undeclared_related (ctx : SugarContext) (o : SugarOptions) (ts : List Tree) : R ts (undeclared ctx o ts) := by
  have hternaries (ts : List Tree) : R ts (ternaries ts) :=
    htrans (heach .collapseTernaries ts) (heach (.inlineStackVars _) _)
  have hvalues (ts : List Tree) : R ts (valuesAndLoops ctx o ts) := by
    unfold valuesAndLoops
    refine htrans ?_ (when_related hrefl o.forLoops (heach .recoverFor) _)
    refine htrans ?_ (when_related hrefl o.forEach (fun _ => heach (.recoverForEach _) _) _)
    refine htrans ?_ (heach (.collapseReturns _) _)
    refine htrans ?_ (heach (.retypeBooleans _) _)
    exact when_related hrefl o.ternary hternaries ts
  refine htrans (hvalues ts) (htrans ?_ (when_related hrefl o.stringSwitch (fun _ => heach (.recoverStrings _) _) _))
  exact when_related hrefl o.enumSwitch (heach (.recoverEnums ctx.resolver)) _

end

end Sugar

end JvmLift
