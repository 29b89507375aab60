import JvmLift.Proofs.Sugar.Patterns

/-!
# What passes keep of reads and writes

Passes drop stores of variables whose reads were counted in the whole body. The counts stay good, since no pass adds a
read: where as many reads are dropped at one place as were counted, none is left.
-/
namespace JvmLift.Sugar

open List

open JvmLift.Tree (nodesList nodesBlock nodesPart nodesArms nodesClauses readKeys writtenKeys OneName Within within_append)

variable {u : VarUses} {N : List VarKey} {ns ms ks ns' ms' : List Tree}

/-! ## Nodes in place of others -/

/-- No read is added, and a variable whose writes are all dropped loses as many reads as were counted. -/
structure Thins (u : VarUses) (old new : List Tree) : Prop where
  reads : ∀ k, (readKeys new).count k ≤ (readKeys old).count k
  writes : writtenKeys new ⊆ writtenKeys old
  kept : ∀ k ∈ writtenKeys old,
    k ∈ writtenKeys new ∨ (readKeys new).count k + u.readKeys.count k ≤ (readKeys old).count k

variable {t t' : Tree}

namespace Thins

theorem of_subset (hr : ∀ k, (readKeys ms).count k ≤ (readKeys ns).count k)
    (hw : writtenKeys ms ⊆ writtenKeys ns) (hw' : writtenKeys ns ⊆ writtenKeys ms) : Thins u ns ms :=
  ⟨hr, hw, fun _ hk => .inl (hw' hk)⟩

theorem of_lost (lost dropped : List VarKey) (hr : ∀ k, (readKeys ms).count k + lost.count k ≤ (readKeys ns).count k)
    (hw : ∀ k, k ∈ writtenKeys ns ↔ k ∈ writtenKeys ms ∨ k ∈ dropped)
    (hl : ∀ k ∈ dropped, u.readKeys.count k ≤ lost.count k) : Thins u ns ms := by
  refine ⟨fun k => Nat.le_trans (Nat.le_add_right _ _) (hr k), fun k hk => (hw k).mpr (.inl hk), fun k hk => ?_⟩
  refine ((hw k).mp hk).imp_right fun hd => ?_
  exact Nat.le_trans (Nat.add_le_add_left (hl k hd) _) (hr k)

theorem of_eq (hr : readKeys ms = readKeys ns) (hw : writtenKeys ms = writtenKeys ns) : Thins u ns ms :=
  of_subset (fun k => Nat.le_of_eq (congrArg (List.count k) hr)) (fun _ hk => hw ▸ hk) (fun _ hk => hw.symm ▸ hk)

theorem refl (ns : List Tree) : Thins u ns ns := of_eq rfl rfl

theorem trans (h : Thins u ns ms) (h' : Thins u ms ks) : Thins u ns ks := by
  refine ⟨fun k => Nat.le_trans (h'.reads k) (h.reads k), fun k hk => h.writes (h'.writes hk), fun k hk => ?_⟩
  have hle := h.reads k
  have hle' := h'.reads k
  rcases h.kept k hk with hm | hm
  · rcases h'.kept k hm with hk' | hk'
    · exact .inl hk'
    · exact .inr (by omega)
  · exact .inr (by omega)

theorem append (h : Thins u ns ms) (h' : Thins u ns' ms') : Thins u (ns ++ ns') (ms ++ ms') := by
  constructor
  · intro k
    simpa [count_append] using Nat.add_le_add (h.reads k) (h'.reads k)
  · rw [Tree.writtenKeys_append, Tree.writtenKeys_append]
    exact append_subset.mpr ⟨fun k hk => mem_append_left _ (h.writes hk),
      fun k hk => mem_append_right _ (h'.writes hk)⟩
  · intro k hk
    have hle := h.reads k
    have hle' := h'.reads k
    simp only [Tree.writtenKeys_append, Tree.readKeys_append, mem_append, count_append] at hk ⊢
    rcases hk with hk | hk
    · rcases h.kept k hk with hm | hm
      · exact .inl (.inl hm)
      · exact .inr (by omega)
    · rcases h'.kept k hk with hm | hm
      · exact .inl (.inr hm)
      · exact .inr (by omega)

theorem one (hr : t'.ownReads.Sublist t.ownReads) (hw : t'.ownWrites = t.ownWrites) : Thins u [t] [t'] := by
  refine of_subset (fun k => ?_) (fun k hk => ?_) (fun k hk => ?_)
  · simpa using (hr.map (·.key)).count_le k
  · simpa [hw] using hk
  · simpa [hw] using hk

theorem within (h : Thins u ns ms) (hN : Within N ns) : Within N ms := by
  refine append_subset.mpr ⟨fun k hk => hN.reads ?_, fun k hk => hN.writes (h.writes hk)⟩
  exact count_pos_iff.mp (Nat.lt_of_lt_of_le (count_pos_iff.mpr hk) (h.reads k))

theorem compositional (N : List VarKey) : Tree.Compositional (Within N) (Thins u) where
  nil := refl []
  node he hw _ := one (by simp [Tree.ownReads_eq, he]) hw
  append := append
  trans := trans
  split := within_append.mp
  keep := within

end Thins

/-! ## Values -/

section

attribute [local simp] Tree.nodes nodesList nodesBlock nodesPart Stmt.operands Stmt.written? Located.withStmt inPlaceOf
  count_append

theorem thins_ternaryStore (hN : OneName N) (h : ternaryStore? t = some t') (hin : Within N t.nodes) :
    Thins u t.nodes t'.nodes := by
  unfold ternaryStore? at h
  split at h
  · simp only [Option.bind_eq_bind, Option.bind_eq_some_iff] at h
    obtain ⟨⟨v, a⟩, hv, ⟨w, b⟩, hw, h⟩ := h
    obtain ⟨_, _, _, rfl⟩ := store?_eq_some hv
    obtain ⟨_, _, _, rfl⟩ := store?_eq_some hw
    split at h <;> cases h
    rename_i e hsame
    have hkey : v.key = w.key :=
      hN.key_eq (hin.writes (by simp)) (hin.writes (by simp)) hsame.2
    refine .of_subset (fun k => ?_) (fun k hk => ?_) (fun k hk => ?_)
    · simp
    · simpa [hkey] using hk
    · simpa [hkey] using hk
  · cases h

theorem thins_collapseTernaries (hN : OneName N) (ts : List Tree) (h : Within N (nodesList ts)) :
    Thins u (nodesList ts) (nodesList (collapseTernaries ts)) := by
  refine (Thins.compositional N).map (fun t ht => ?_) ts h
  cases hc : ternaryStore? t with
  | none => exact .refl _
  | some t' => exact thins_ternaryStore hN hc ht

/-! ### Stack variables -/

theorem nodes_mapOwn_of_evaluatedOnce (h : evaluatedOnce t = true) (f : Expr → Expr) :
    ∃ rest, t.nodes = t :: rest ∧ (t.mapOwn f).nodes = t.mapOwn f :: rest := by
  cases t with
  | simple | declare | ifElse | switch | synchronized | forEach => exact ⟨_, rfl, rfl⟩
  | _ => cases h

variable {v : LocalVar}

theorem count_varsFor (hN : OneName N) (value : Expr) (hv : v.key ∈ N) (k : VarKey) :
    (ws : List LocalVar) → (∀ w ∈ ws, w.key ∈ N) →
      ((ws.flatMap (Expr.varsFor v value)).map (·.key)).count k + ws.countP (·.same v) * [v.key].count k =
        (ws.map (·.key)).count k + ws.countP (·.same v) * (value.vars.map (·.key)).count k
  | [], _ => by simp
  | w :: ws, h => by
      have ih := count_varsFor hN value hv k ws fun w hw => h w (mem_cons_of_mem _ hw)
      cases hw : w.same v with
      | false =>
          simp [Expr.varsFor, hw, count_cons] at ih ⊢
          omega
      | true =>
          have hkey := hN.key_eq (h w mem_cons_self) hv hw
          by_cases hk : v.key = k <;> simp [Expr.varsFor, hw, hkey, hk, Nat.add_mul] at ih ⊢ <;> omega

theorem thins_stackStore (hN : OneName N) {next value} (h : stackStore? u t next = some (v, value))
    (hin : Within N (t.nodes ++ next.nodes)) :
    Thins u (t.nodes ++ next.nodes) (next.mapOwn (Expr.replaceRead v value)).nodes := by
  unfold stackStore? at h
  split at h
  · rename_i hstore
    split at h <;> cases h
    rename_i hv
    obtain ⟨-, hreads, -, hown, honce⟩ := hv
    obtain ⟨start, stop, line, rfl⟩ := store?_eq_some hstore
    obtain ⟨rest, hnodes, hnodes'⟩ := nodes_mapOwn_of_evaluatedOnce honce (Expr.replaceRead v value)
    rw [hnodes] at hin ⊢
    rw [hnodes']
    have hvars : (next.mapOwn (Expr.replaceRead v value)).ownReads =
        next.ownReads.flatMap (Expr.varsFor v value) := by
      simp [Tree.ownReads_eq, Tree.ownExprs_mapOwn, flatMap_map, flatMap_assoc,
        Expr.vars_mapNodes_replaceRead]
    have hnext : ∀ w ∈ next.ownReads, w.key ∈ N :=
      fun w hw => hin.reads (by simpa using .inr (.inl ⟨w, hw, rfl⟩))
    rw [Tree.countOwnReads] at hown
    refine .of_lost [v.key] [v.key] (fun k => ?_) (fun k => ?_) (fun k hk => ?_)
    · have hcount := count_varsFor hN (v := v) value (hin.writes (by simp)) k next.ownReads hnext
      simp only [hown] at hcount
      simp [hvars] at hcount ⊢
      omega
    · simp [Tree.ownWrites_mapOwn, or_comm]
    · rw [mem_singleton.mp hk, count_singleton_self]
      exact Nat.le_of_eq hreads
  · cases h

theorem thins_inlineFrom (hN : OneName N) (t : Tree) (ts : List Tree) (h : Within N (nodesList (t :: ts))) :
    Thins u (nodesList (t :: ts)) (nodesList (inlineFrom u t ts)) := by
  induction ts generalizing t with
  | nil => exact .refl _
  | cons next rest ih =>
      rw [inlineFrom]
      simp only [nodesList] at h ⊢
      split
      · rename_i v value hs
        rw [← append_assoc] at h ⊢
        have hstep := (thins_stackStore hN hs (within_append.mp h).1).append (.refl (nodesList rest))
        exact hstep.trans (ih _ (hstep.within h))
      · obtain ⟨-, hrest⟩ := within_append.mp h
        exact (Thins.refl _).append (ih next hrest)

theorem thins_inlineStackVars (hN : OneName N) (ts : List Tree) (h : Within N (nodesList ts)) :
    Thins u (nodesList ts) (nodesList (inlineStackVars u ts)) := by
  cases ts with
  | nil => exact .refl _
  | cons t rest => exact thins_inlineFrom hN t rest h

/-! ### Booleans -/

theorem vars_toBoolean (e : Expr) : (toBoolean e).vars.Sublist e.vars := by
  cases e with
  | ternary c a b =>
      rw [toBoolean, Expr.vars_ternary, append_assoc]
      split
      · exact sublist_append_left _ _
      · rw [Expr.vars_negate]
        exact sublist_append_left _ _
      · rw [Expr.vars_ternary, append_assoc]
        exact (List.Sublist.refl _).append ((vars_toBoolean a).append (vars_toBoolean b))
  | intLit n =>
      simp only [toBoolean, Expr.retype]
      split
      · exact .refl _
      · split
        · exact .refl _
        · split <;> exact .refl _
  | _ => exact .refl _

theorem vars_zipWith_sublist {g : Expr → ErasedType → Expr} (hg : ∀ e p, (g e p).vars.Sublist e.vars) :
    (es : List Expr) → (ps : List ErasedType) → ((zipWith g es ps).flatMap (·.vars)).Sublist (es.flatMap (·.vars))
  | [], _ => by simp
  | _ :: _, [] => by simp
  | e :: es, p :: ps => (hg e p).append (vars_zipWith_sublist hg es ps)

theorem vars_booleanArgs (d : String) (args : List Expr) :
    ((booleanArgs d args).flatMap (·.vars)).Sublist (args.flatMap (·.vars)) := by
  unfold booleanArgs
  split
  · split
    · refine vars_zipWith_sublist (fun e p => ?_) _ _
      split
      · exact vars_toBoolean e
      · exact .refl _
    · exact .refl _
  · exact .refl _

theorem vars_booleanOperands (e : Expr) : (booleanOperands e).vars.Sublist e.vars := by
  unfold booleanOperands
  split
  · split
    · rw [Expr.vars_compare]
      split
      · exact (vars_toBoolean _).trans (sublist_append_left _ _)
      · rw [Expr.vars_negate]
        exact (vars_toBoolean _).trans (sublist_append_left _ _)
    · exact .refl _
  · simp only [Expr.vars_call]
    exact (List.Sublist.refl _).append (vars_booleanArgs _ _)
  · simp only [Expr.vars_new]
    exact vars_booleanArgs _ _
  · exact .refl _

theorem thins_mapOwn {f} (hf : ∀ e, (f e).vars.Sublist e.vars) (t : Tree) : Thins u t.nodes (t.mapOwn f).nodes := by
  refine (Thins.compositional []).mapOwn (fun t => .one ?_ (Tree.ownWrites_mapOwn f t)) t
  rw [Tree.ownReads_eq, Tree.ownReads_eq, Tree.ownExprs_mapOwn]
  exact Expr.vars_map_sublist fun e _ => Expr.vars_mapNodes_sublist hf e

theorem ownReads_booleanResult (returnType : ErasedType) (s : Located) :
    (Tree.simple (s.withStmt (booleanResult returnType s.stmt))).ownReads.Sublist (Tree.simple s).ownReads := by
  have hvalue (c : Prop) [Decidable c] (e : Expr) : (if c then toBoolean e else e).vars.Sublist e.vars := by
    split
    · exact vars_toBoolean e
    · exact .refl _
  cases h : s.stmt with
  | store v value | fieldStore owner name t object value => simpa [booleanResult, h] using hvalue _ value
  | leave value =>
      cases value with
      | none => simp [booleanResult]
      | some value => simpa [booleanResult, h] using hvalue _ value
  | _ => simp [booleanResult, h]

theorem thins_retypeBoolean (returnType : ErasedType) (t : Tree) :
    Thins u t.nodes (retypeBoolean returnType t).nodes := by
  unfold retypeBoolean
  split
  · rename_i s
    have hresult : Thins u [.simple s] [.simple (s.withStmt (booleanResult returnType s.stmt))] := by
      refine .one (ownReads_booleanResult returnType s) ?_
      cases h : s.stmt with
      | leave value => cases value <;> simp [booleanResult, h]
      | _ => simp [booleanResult, h]
    exact hresult.trans (thins_mapOwn vars_booleanOperands (.simple _))
  · exact thins_mapOwn vars_booleanOperands _

theorem thins_retypeBooleans (returnType : ErasedType) (ts : List Tree) (h : Within N (nodesList ts)) :
    Thins u (nodesList ts) (nodesList (retypeBooleans returnType ts)) :=
  (Thins.compositional N).map (fun t _ => thins_retypeBoolean returnType t) ts h

/-! ### Returned temporaries -/

theorem thins_asReturn (hN : OneName N) {next} (hr : returned? u next = some v)
    (h : asReturn? v t = some t') (hin : Within N (t.nodes ++ next.nodes)) :
    Thins u (t.nodes ++ next.nodes) t'.nodes := by
  obtain ⟨_, _, _, rfl, hreads⟩ := returned?_some hr
  have hlost {w : LocalVar} (hw : w.key ∈ N) (hv : v.key ∈ N) (hsame : w.same v = true) :
      ∀ k ∈ [w.key], u.readKeys.count k ≤ [v.key].count k := by
    intro k hk
    rw [mem_singleton.mp hk, hN.key_eq hw hv hsame, count_singleton_self]
    exact Nat.le_of_eq hreads
  unfold asReturn? at h
  split at h
  · obtain ⟨body', hbody, rfl⟩ := Option.map_eq_some_iff.mp h
    simp only [lastStoreAsReturn?, Option.bind_eq_bind, Option.bind_eq_some_iff, Option.pure_def,
      Option.some.injEq] at hbody
    obtain ⟨last, hlast, t', ht', rfl⟩ := hbody
    obtain ⟨front, rfl⟩ := getLast?_eq_some_iff.mp hlast
    obtain ⟨w, value, _, _, _, hsame, rfl, rfl⟩ := storeAsReturn?_some ht'
    refine .of_lost [v.key] [w.key] (fun k => ?_) (fun k => ?_)
      (hlost (hin.writes (by simp [Tree.nodesList_append])) (hin.reads (by simp)) hsame)
    · simp [Tree.nodesList_append]
      omega
    · simp [Tree.nodesList_append, or_assoc, or_comm]
  · obtain ⟨w, value, _, _, _, hsame, rfl, rfl⟩ := storeAsReturn?_some h
    refine .of_lost [v.key] [w.key] (fun k => ?_) (fun k => ?_) (hlost (hin.writes (by simp)) (hin.reads (by simp)) hsame)
    · simp
    · simp

theorem thins_returnFrom (hN : OneName N) (t : Tree) (ts : List Tree) (h : Within N (nodesList (t :: ts))) :
    Thins u (nodesList (t :: ts)) (nodesList (returnFrom u t ts)) := by
  induction ts generalizing t with
  | nil => exact .refl _
  | cons next rest ih =>
      rw [returnFrom]
      simp only [nodesList] at h ⊢
      split
      · rename_i t' ht'
        obtain ⟨v, hv, ht'⟩ := Option.bind_eq_some_iff.mp ht'
        rw [← append_assoc] at h ⊢
        have hstep := (thins_asReturn hN hv ht' (within_append.mp h).1).append (.refl (nodesList rest))
        exact hstep.trans (ih t' (hstep.within h))
      · obtain ⟨-, hrest⟩ := within_append.mp h
        exact (Thins.refl _).append (ih next hrest)

theorem thins_collapseReturns (hN : OneName N) (ts : List Tree) (h : Within N (nodesList ts)) :
    Thins u (nodesList ts) (nodesList (collapseReturns u ts)) := by
  cases ts with
  | nil => exact .refl _
  | cons t rest => exact thins_returnFrom hN t rest h

end

end JvmLift.Sugar
