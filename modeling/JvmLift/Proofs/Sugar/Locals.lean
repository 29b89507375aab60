import JvmLift.Proofs.Sugar.Placement
import JvmLift.Sugar.Basic

/-!
# Locals are declared in scope

A variable is visible behind a declaration to the end of its list, in a loop that declares it in its head or goes over
elements, and in a catch clause.
-/
namespace JvmLift.Sugar

open List

/-! ## Scopes of variables -/

def Sees (slots : UInt16) (vis ks : List VarKey) : Prop := ∀ k ∈ ks, isParamKey slots k = false → k ∈ vis

def declares : Tree → List VarKey
  | .declare v _ _ => [v.key]
  | _ => []

mutual

/-- Every local that is read or written is visible, and none is declared where a declaration of it
reaches. `vis` is what is visible in front of the statement and `dec` what declarations reach it. -/
def InScope (slots : UInt16) (vis dec : List VarKey) : Tree → Prop
  | .simple s => Sees slots vis (keysOf ((Tree.simple s).ownReads ++ s.stmt.written?.toList))
  | .declare v init line => Sees slots vis (keysOf (Tree.declare v init line).ownReads) ∧ v.key ∉ dec
  | .ifElse e t b =>
      Sees slots vis (keysOf (Tree.ifElse e t b).ownReads) ∧ InScopeList slots vis dec t ∧
        InScopeBlock slots vis dec b
  | .whileLoop e b =>
      Sees slots vis (keysOf (Tree.whileLoop e b).ownReads) ∧ InScopeList slots vis dec b
  | .doWhile b e => Sees slots vis (keysOf (Tree.doWhile b e).ownReads) ∧ InScopeList slots vis dec b
  | .forLoop i e u b =>
      InScopePart slots vis dec i ∧
        Sees slots (keysOf (initVar i) ++ vis) (keysOf (Tree.forLoop i e u b).ownReads) ∧
        InScopePart slots (keysOf (initVar i) ++ vis) (keysOf (initVar i) ++ dec) u ∧
        InScopeList slots (keysOf (initVar i) ++ vis) (keysOf (initVar i) ++ dec) b
  | .forEach v e b =>
      Sees slots vis (keysOf (Tree.forEach v e b).ownReads) ∧ InScopeList slots (v.key :: vis) dec b
  | .switch k e arms =>
      Sees slots vis (keysOf (Tree.switch k e arms).ownReads) ∧ InScopeArms slots vis dec arms
  | .tryCatch _ b cs c =>
      InScopeList slots vis dec b ∧ InScopeClauses slots vis dec cs ∧ InScopeBlock slots vis dec c
  | .synchronized e b =>
      Sees slots vis (keysOf (Tree.synchronized e b).ownReads) ∧ InScopeList slots vis dec b
  | .labeled _ t => InScope slots vis dec t
  | .breakTo _ | .continueTo _ | .label _ | .goto _ | .comment _ => True

def InScopePart (slots : UInt16) (vis dec : List VarKey) : Option Tree → Prop
  | none => True
  | some t => InScope slots vis dec t

def InScopeBlock (slots : UInt16) (vis dec : List VarKey) : Option (List Tree) → Prop
  | none => True
  | some ts => InScopeList slots vis dec ts

def InScopeList (slots : UInt16) (vis dec : List VarKey) : List Tree → Prop
  | [] => True
  | t :: ts => InScope slots vis dec t ∧ InScopeList slots (declares t ++ vis) (declares t ++ dec) ts

def InScopeArms (slots : UInt16) (vis dec : List VarKey) : List (Arm × List Tree) → Prop
  | [] => True
  | (_, b) :: rest => InScopeList slots vis dec b ∧ InScopeArms slots vis dec rest

def InScopeClauses (slots : UInt16) (vis dec : List VarKey) : List (Clause × List Tree) → Prop
  | [] => True
  | (c, b) :: rest => InScopeList slots (c.var.key :: vis) dec b ∧ InScopeClauses slots vis dec rest

end

instance (slots : UInt16) (vis ks : List VarKey) : Decidable (Sees slots vis ks) := by
  unfold Sees
  infer_instance

mutual

def decInScope (slots : UInt16) (vis dec : List VarKey) : (t : Tree) → Decidable (InScope slots vis dec t)
  | .simple _ => inferInstanceAs (Decidable (Sees slots vis _))
  | .declare .. => inferInstanceAs (Decidable (_ ∧ _))
  | .ifElse _ t b => @instDecidableAnd _ _ _ (@instDecidableAnd _ _ (decInScopeList slots vis dec t)
      (decInScopeBlock slots vis dec b))
  | .whileLoop _ b | .doWhile b _ | .synchronized _ b => @instDecidableAnd _ _ _ (decInScopeList slots vis dec b)
  | .forLoop i _ u b => @instDecidableAnd _ _ (decInScopePart slots vis dec i) (@instDecidableAnd _ _ _
      (@instDecidableAnd _ _ (decInScopePart slots _ _ u) (decInScopeList slots _ _ b)))
  | .forEach v _ b => @instDecidableAnd _ _ _ (decInScopeList slots (v.key :: vis) dec b)
  | .switch _ _ arms => @instDecidableAnd _ _ _ (decInScopeArms slots vis dec arms)
  | .tryCatch _ b cs c => @instDecidableAnd _ _ (decInScopeList slots vis dec b) (@instDecidableAnd _ _
      (decInScopeClauses slots vis dec cs) (decInScopeBlock slots vis dec c))
  | .labeled _ t => decInScope slots vis dec t
  | .breakTo _ | .continueTo _ | .label _ | .goto _ | .comment _ => .isTrue trivial

def decInScopePart (slots : UInt16) (vis dec : List VarKey) :
    (part : Option Tree) → Decidable (InScopePart slots vis dec part)
  | none => .isTrue trivial
  | some t => decInScope slots vis dec t

def decInScopeBlock (slots : UInt16) (vis dec : List VarKey) :
    (b : Option (List Tree)) → Decidable (InScopeBlock slots vis dec b)
  | none => .isTrue trivial
  | some ts => decInScopeList slots vis dec ts

def decInScopeList (slots : UInt16) (vis dec : List VarKey) :
    (ts : List Tree) → Decidable (InScopeList slots vis dec ts)
  | [] => .isTrue trivial
  | t :: ts => @instDecidableAnd _ _ (decInScope slots vis dec t) (decInScopeList slots _ _ ts)

def decInScopeArms (slots : UInt16) (vis dec : List VarKey) :
    (arms : List (Arm × List Tree)) → Decidable (InScopeArms slots vis dec arms)
  | [] => .isTrue trivial
  | (_, b) :: rest => @instDecidableAnd _ _ (decInScopeList slots vis dec b) (decInScopeArms slots vis dec rest)

def decInScopeClauses (slots : UInt16) (vis dec : List VarKey) :
    (cs : List (Clause × List Tree)) → Decidable (InScopeClauses slots vis dec cs)
  | [] => .isTrue trivial
  | (c, b) :: rest => @instDecidableAnd _ _ (decInScopeList slots (c.var.key :: vis) dec b)
      (decInScopeClauses slots vis dec rest)

end

instance (slots : UInt16) (vis dec : List VarKey) (ts : List Tree) : Decidable (InScopeList slots vis dec ts) :=
  decInScopeList slots vis dec ts

/-! ## Trees without declarations -/

def SimplePart : Option Tree → Prop
  | none | some (.simple _) => True
  | some _ => False

mutual

/-- Nothing is declared yet, and the parts of a `for` are simple statements. -/
def Plain : Tree → Prop
  | .declare .. => False
  | .forLoop i _ u b => SimplePart i ∧ SimplePart u ∧ PlainList b
  | .ifElse _ t b => PlainList t ∧ PlainBlock b
  | .whileLoop _ b | .doWhile b _ | .forEach _ _ b | .synchronized _ b => PlainList b
  | .switch _ _ arms => PlainArms arms
  | .tryCatch _ b cs c => PlainList b ∧ PlainClauses cs ∧ PlainBlock c
  | .labeled _ t => Plain t
  | .simple _ | .breakTo _ | .continueTo _ | .label _ | .goto _ | .comment _ => True

def PlainBlock : Option (List Tree) → Prop
  | none => True
  | some ts => PlainList ts

def PlainList : List Tree → Prop
  | [] => True
  | t :: ts => Plain t ∧ PlainList ts

def PlainArms : List (Arm × List Tree) → Prop
  | [] => True
  | (_, b) :: rest => PlainList b ∧ PlainArms rest

def PlainClauses : List (Clause × List Tree) → Prop
  | [] => True
  | (_, b) :: rest => PlainList b ∧ PlainClauses rest

end

/-! ## Declarations in place -/

def storeReads : Tree → List LocalVar
  | .forLoop (some i) _ _ _ => storeReads i
  | .labeled _ t => storeReads t
  | t => t.ownReads

def isSimple : Tree → Bool
  | .simple _ => true
  | _ => false

/-- Is the variable of a placement visible wherever the list mentions it? A store that declares it
must not read it, and if it is inside a loop or a label no other statement may mention the variable. -/
def settles (ts : List Tree) (p : Placement) : Bool :=
  !p.inPlace ||
    match ts[p.index]? with
    | none => true
    | some t =>
        !(keysOf (storeReads t)).contains p.var.key &&
          (isSimple t || ts.zipIdx.all fun (u, i) =>
            i == p.index || !(keysOf (freeVars [] u)).contains p.var.key)

mutual

def settledNested (slots : UInt16) (bound : List VarKey) : Tree → Bool
  | .ifElse _ t b =>
      (placements slots bound t).all (settles t) &&
        settledIn slots (innerBound bound (placements slots bound t)) t && settledBlock slots bound b
  | .whileLoop _ b | .doWhile b _ | .synchronized _ b | .forLoop _ _ _ b =>
      (placements slots bound b).all (settles b) &&
        settledIn slots (innerBound bound (placements slots bound b)) b
  | .forEach v _ b =>
      (placements slots (v.key :: bound) b).all (settles b) &&
        settledIn slots (innerBound (v.key :: bound) (placements slots (v.key :: bound) b)) b
  | .switch _ _ arms => settledArms slots bound arms
  | .tryCatch _ b cs c =>
      (placements slots bound b).all (settles b) &&
        settledIn slots (innerBound bound (placements slots bound b)) b && settledClauses slots bound cs &&
        settledBlock slots bound c
  | .labeled _ t => settledNested slots bound t
  | _ => true

def settledIn (slots : UInt16) (bound : List VarKey) : List Tree → Bool
  | [] => true
  | t :: ts => settledNested slots bound t && settledIn slots bound ts

def settledBlock (slots : UInt16) (bound : List VarKey) : Option (List Tree) → Bool
  | none => true
  | some b =>
      (placements slots bound b).all (settles b) &&
        settledIn slots (innerBound bound (placements slots bound b)) b

def settledArms (slots : UInt16) (bound : List VarKey) : List (Arm × List Tree) → Bool
  | [] => true
  | (_, b) :: rest =>
      (placements slots bound b).all (settles b) &&
        settledIn slots (innerBound bound (placements slots bound b)) b && settledArms slots bound rest

def settledClauses (slots : UInt16) (bound : List VarKey) : List (Clause × List Tree) → Bool
  | [] => true
  | (c, b) :: rest =>
      (placements slots (c.var.key :: bound) b).all (settles b) &&
        settledIn slots (innerBound (c.var.key :: bound) (placements slots (c.var.key :: bound) b)) b &&
        settledClauses slots bound rest

end

/-- Do the placements in a list and everything nested in it settle? -/
def settled (slots : UInt16) (ts : List Tree) : Bool :=
  (placements slots [] ts).all (settles ts) && settledIn slots (innerBound [] (placements slots [] ts)) ts

/-! ## One list -/

section

variable {slots : UInt16} {bound vis dec : List VarKey} {whole ts rest : List Tree} {t : Tree} {i : Nat}

def Known (slots : UInt16) (bound vis ks : List VarKey) : Prop :=
  ∀ k ∈ ks, isParamKey slots k = false → k ∈ bound → k ∈ vis

def bareAt (ps : List Placement) (i : Nat) : List Placement :=
  ((ps.filter (·.index == i)).filter fun p => !p.inPlace).reverse

def bareKeys (slots : UInt16) (bound : List VarKey) (whole : List Tree) (i : Nat) : List VarKey :=
  ((bareAt (placements slots bound whole) i).map (·.var.key)).reverse

abbrev boundIn (slots : UInt16) (bound : List VarKey) (whole : List Tree) : List VarKey :=
  innerBound bound (placements slots bound whole)

abbrev declareFrom (slots : UInt16) (bound : List VarKey) (whole : List Tree) (i : Nat) (ts : List Tree) : List Tree :=
  declareIn slots (boundIn slots bound whole) (placements slots bound whole) i ts

variable {ps : List Placement} {p : Placement}

theorem mem_bareAt : p ∈ bareAt ps i ↔ p ∈ ps ∧ p.index = i ∧ p.inPlace = false := by
  simp only [bareAt, mem_reverse, mem_filter, beq_iff_eq, Bool.not_eq_true', and_assoc]

theorem mem_bareKeys {k} : k ∈ bareKeys slots bound whole i ↔
    ∃ p ∈ placements slots bound whole, p.index = i ∧ p.inPlace = false ∧ p.var.key = k := by
  simp only [bareKeys, mem_reverse, mem_map, mem_bareAt, and_assoc]

theorem any_inPlace : (ps.filter (·.index == i)).any (·.inPlace) = true ↔ ∃ p ∈ ps, p.index = i ∧ p.inPlace = true := by
  simp only [any_eq_true, mem_filter, beq_iff_eq, and_assoc]

theorem settles_iff (ht : whole[p.index]? = some t) : settles whole p = true ↔
    (p.inPlace = true → p.var.key ∉ keysOf (storeReads t) ∧
      ((∃ s, t = .simple s) ∨ ∀ j u, whole[j]? = some u → Mentions p.var.key u → j = p.index)) := by
  have hsimple : isSimple t = true ↔ ∃ s, t = .simple s := by
    cases t <;> simp [isSimple]
  have hothers : (∀ u j, (u, j) ∈ whole.zipIdx → j = p.index ∨ p.var.key ∉ keysOf (freeVars [] u)) ↔
      ∀ j u, whole[j]? = some u → Mentions p.var.key u → j = p.index := by
    simp only [mem_zipIdx_iff_getElem?, mem_freeVars, not_mem_nil, not_false_eq_true, true_and]
    exact ⟨fun h j u hu hm => (h u j hu).resolve_right fun hnot => hnot hm,
      fun h u j hu => (em (Mentions p.var.key u)).imp (h j u hu) id⟩
  by_cases hin : p.inPlace = true
  · simp only [settles, hin, Bool.not_true, Bool.false_or, ht, Bool.and_eq_true, Bool.not_eq_true',
      Bool.or_eq_true, all_eq_true, Prod.forall, beq_iff_eq, contains_eq_mem, decide_eq_false_iff_not,
      hsimple, hothers, true_implies]
  · simp [settles, hin]

theorem stores_of_mem (ht : whole[i]? = some t) (hp : p ∈ placements slots bound whole) (hi : p.index = i)
    (hin : p.inPlace = true) : storesTo p.var.key t = true := by
  obtain ⟨u, hu, -, hst⟩ := (placed_of_mem hp).at_index
  obtain rfl : t = u := Option.some.inj (ht.symm.trans (hi ▸ hu))
  exact hst ▸ hin

theorem inScopeList_declares_iff (hnodup : (ps.map (·.var.key)).Nodup) (hfresh : ∀ p ∈ ps, p.var.key ∉ dec) :
    InScopeList slots vis dec (ps.map (fun p => .declare p.var none none) ++ rest) ↔
      InScopeList slots ((ps.map (·.var.key)).reverse ++ vis) ((ps.map (·.var.key)).reverse ++ dec) rest := by
  induction ps generalizing vis dec with
  | nil => rfl
  | cons p ps ih =>
      obtain ⟨hp, hnodup⟩ := nodup_cons.mp hnodup
      obtain ⟨hdec, hfresh⟩ := forall_mem_cons.mp hfresh
      have hdeclare : InScope slots vis dec (.declare p.var none none) :=
        ⟨fun k hk => (not_mem_nil hk).elim, hdec⟩
      refine (and_iff_right hdeclare).trans ((ih hnodup fun q hq hmem => ?_).trans (by simp [declares]))
      rcases mem_cons.mp hmem with heq | hmem
      · exact hp (mem_map.mpr ⟨q, hq, heq⟩)
      · exact hfresh q hq hmem

end

/-! ## One statement -/

section

variable {slots : UInt16} {bound vis dec : List VarKey} {k : VarKey} {t : Tree}

theorem sees_nil : Sees slots vis [] := fun _ hk => (not_mem_nil hk).elim

theorem known_nil : Known slots bound vis [] := fun _ hk => (not_mem_nil hk).elim

theorem sees_append {vs ws} : Sees slots vis (keysOf (vs ++ ws)) ↔
    Sees slots vis (keysOf vs) ∧ Sees slots vis (keysOf ws) := by
  simp only [Sees, keysOf_append, forall_mem_append]

theorem known_append {vs ws} : Known slots bound vis (keysOf (vs ++ ws)) ↔
    Known slots bound vis (keysOf vs) ∧ Known slots bound vis (keysOf ws) := by
  simp only [Known, keysOf_append, forall_mem_append]

theorem known_bind {ts} : Known slots (k :: bound) (k :: vis) (keysOf (varsIn [] ts)) ↔
    Known slots bound vis (keysOf (varsIn [k] ts)) := by
  simp only [Known, mem_varsIn [k], mem_cons, not_mem_nil, or_false]
  refine ⟨fun h j hj hl hb => (h j hj.2 hl (.inr hb)).resolve_left hj.1, fun h j hj hl hb => ?_⟩
  by_cases hk : j = k
  · exact .inl hk
  · exact .inr (h j ⟨hk, hj⟩ hl (hb.resolve_left hk))

def partVars : Option Tree → List LocalVar
  | none => []
  | some t => namedVars t

theorem namedVars_forLoop (init : Option Tree) (e : Expr) (update : Option Tree) (b : List Tree) :
    namedVars (.forLoop init e update b) =
      (Tree.forLoop init e update b).ownReads ++ partVars init ++ partVars update := by
  cases init <;> cases update <;> simp [namedVars, partVars]

theorem inScopePart_iff {part} (hp : SimplePart part) :
    InScopePart slots vis dec part ↔ Sees slots vis (keysOf (partVars part)) := by
  match part with
  | none => exact iff_of_true trivial sees_nil
  | some (.simple _) => rfl

theorem initVar_eq_nil {part} (hp : SimplePart part) : initVar part = [] := by
  match part with
  | none | some (.simple _) => rfl

variable {s : Located}

theorem storesTo_simple (h : storesTo k (.simple s) = true) :
    ∃ v value lo hi line, s = ⟨.store v value, lo, hi, line⟩ ∧ v.key = k := by
  unfold storesTo at h
  split at h
  · rename_i hstore
    unfold Tree.store? at hstore
    split at hstore
    · rename_i heq
      cases heq
      cases hstore
      exact ⟨_, _, _, _, _, rfl, by simpa using h⟩
    · cases hstore
  · cases h

theorem declares_declared_simple (hst : storesTo k (.simple s) = true) :
    declares (declared (.simple s)) = [k] ∧ keysOf (initVar (some (declared (.simple s)))) = [k] := by
  obtain ⟨_, _, _, _, _, rfl, rfl⟩ := storesTo_simple hst
  exact ⟨rfl, rfl⟩

/-- A store that declares its variable sees what it mentions if it would behind a declaration, unless
it reads the variable itself. -/
theorem inScope_declared_simple (hst : storesTo k (.simple s) = true)
    (hl : isParamKey slots k = false) (hvis : k ∉ vis) (hdec : k ∉ dec) : InScope slots vis dec (declared (.simple s)) ↔
      Sees slots (k :: vis) (keysOf (namedVars (.simple s))) ∧ k ∉ keysOf (Tree.simple s).ownReads := by
  obtain ⟨v, value, lo, hi, line, rfl, rfl⟩ := storesTo_simple hst
  refine (and_iff_left hdec).trans ⟨fun h => ⟨sees_append.mpr ⟨?_, fun j hj _ => ?_⟩, fun hk => ?_⟩, ?_⟩
  · exact fun j hj hl => mem_cons_of_mem _ (h j hj hl)
  · exact mem_cons.mpr (.inl (mem_singleton.mp hj))
  · exact hvis (h _ hk hl)
  · intro ⟨hnames, hreads⟩ j hj hl
    exact mem_of_ne_of_mem (fun heq : j = v.key => hreads (heq ▸ hj)) ((sees_append.mp hnames).1 j hj hl)

theorem declares_declareNested (hp : Plain t) : declares (declareNested slots bound t) = [] := by
  cases t <;> first | rfl | exact hp.elim

theorem storesTo_unique {k'} : (t : Tree) → Plain t → storesTo k t = true → storesTo k' t = true → k = k'
  | .simple s, _, h, h' => by
      obtain ⟨_, _, _, _, _, rfl, rfl⟩ := storesTo_simple h
      simpa [storesTo, Tree.store?] using h'
  | .forLoop (some (.simple s)) _ _ _, _, h, h' => by
      obtain ⟨_, _, _, _, _, rfl, rfl⟩ := storesTo_simple h
      simpa [storesTo, Tree.store?] using h'
  | .labeled _ t, hp, h, h' => storesTo_unique t hp h h'

end

end JvmLift.Sugar
