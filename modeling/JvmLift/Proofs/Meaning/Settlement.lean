import JvmLift.Proofs.Meaning.Frames

/-!
# What stands for duplicated values

Settling a block moves a duplicated value to its read, or keeps it in a variable. A pass over the statements keeps the
list of the duplicates for which what stands for the value still gives it.
-/
namespace JvmLift

open List

namespace Expr

def readsPlace (v : LocalVar) (e : Expr) : Bool :=
  e.nodes.any fun
    | .localVar u => u.place == v.place
    | _ => false

def readsOnly (live : List Nat) (e : Expr) : Bool :=
  e.nodes.all fun
    | .dupLoad id => live.contains id
    | _ => true

end Expr

variable {id : Nat}

namespace Duplicates

variable {settled : List (Nat × Settlement)} {ds : Duplicates}

/-! ## Duplicates that are still what stands for them -/

def surviving (g : Nat → Expr) (v : LocalVar) (live : List Nat) : List Nat :=
  live.filter fun id => !(g id).readsPlace v

/-- The duplicates for which something stands behind statements, unless one is read for which nothing
does any more. A value that moves or is lost must not act on the heap. -/
def liveAfter (ds : Duplicates) (settled : List (Nat × Settlement)) (g : Nat → Expr) :
    List Nat → List Located → Option (List Nat)
  | live, [] => some live
  | live, s :: rest =>
      if (s.stmt.inputs ds).all (Expr.readsOnly live) then
        match s.stmt with
        | .dupStore id =>
            match settled.lookup id with
            | none =>
                if (ds.get? id).all fun value => value.isCalm || value.hasSideEffects then
                  liveAfter ds settled g (live.filter (· != id)) rest
                else none
            | some (.inlined value) => if value.isCalm then liveAfter ds settled g (id :: live) rest else none
            | some (.var v) =>
                match rest with
                | [] => some (id :: surviving g v live)
                | next :: rest =>
                    if (storedTo? id next.stmt).isSome then liveAfter ds settled g (id :: surviving g v live) rest
                    else liveAfter ds settled g (id :: surviving g v live) (next :: rest)
        | stmt => liveAfter ds settled g (stmt.written?.elim live (surviving g · live)) rest
      else none

theorem liveAfter_dupStore {g live live' s rest value} (hs : s.stmt = .dupStore id) (hv : ds.get? id = some value)
    (h : ds.liveAfter settled g live (s :: rest) = some live') : value.readsOnly live = true ∧
      (settled.lookup id = none → (value.isCalm = true ∨ value.hasSideEffects = true) ∧
        ds.liveAfter settled g (live.filter (· != id)) rest = some live') ∧
      (∀ v, settled.lookup id = some (.inlined v) → v.isCalm = true ∧
        ds.liveAfter settled g (id :: live) rest = some live') ∧ ∀ v, settled.lookup id = some (.var v) →
        ((∀ next ∈ rest.head?, storedTo? id next.stmt = none) →
          ds.liveAfter settled g (id :: surviving g v live) rest = some live') ∧
        ∀ next rest', rest = next :: rest' → (storedTo? id next.stmt).isSome = true →
          ds.liveAfter settled g (id :: surviving g v live) rest' = some live' := by
  unfold liveAfter at h
  simp only [hs, Stmt.inputs, hv, Option.toList_some, all_cons, all_nil, Bool.and_true, Option.all_some,
    Bool.or_eq_true] at h
  split at h
  · rename_i hreads
    refine ⟨hreads, fun hlookup => ?_, fun v hlookup => ?_, fun v hlookup => ⟨fun hnext => ?_, ?_⟩⟩
    · simp only [hlookup] at h
      split at h
      · exact ⟨‹_›, h⟩
      · cases h
    · simp only [hlookup] at h
      split at h
      · exact ⟨‹_›, h⟩
      · cases h
    · simp only [hlookup] at h
      cases rest with
      | nil => simpa [liveAfter] using h
      | cons next rest => simpa [hnext next rfl] using h
    · rintro next rest' rfl hnext
      simpa [hlookup, hnext] using h
  · cases h

end Duplicates

def Located.fill (g : Nat → Expr) (s : Located) : Located := s.withStmt (s.stmt.mapNodes (.fillLoad g))

/-! ## Environments with and without duplicates -/

variable {V H : Type} {M : Model V H}

/-- The environments agree on slots and on temporaries up to some number, and what stands for a
duplicate gives it. -/
structure Model.Mirrors (M : Model V H) (g : Nat → Expr) (temps : Nat) (live : List Nat) (σ σ' : Env V) : Prop where
  self : σ'.self = σ.self
  slots : σ'.slots = σ.slots
  temps : ∀ n : UInt16, n.toNat < temps → σ'.vars (.temp, n) = σ.vars (.temp, n)
  copies : ∀ id ∈ live, ∀ w, M.eval σ' (g id) w = (σ.copies id, w)

/-- Two executions do the same and leave environments that agree. -/
structure Model.Echoes (M : Model V H) (g : Nat → Expr) (temps : Nat) (live : List Nat) (r r' : Ran V H) : Prop where
  world : r'.world = r.world
  left : r'.left = r.left
  slots : r'.env.slots = r.env.slots
  mirrors : r.left = none → M.Mirrors g temps live r.env r'.env

variable {v : LocalVar}

namespace Model

variable {g : Nat → Expr} {temps dups : Nat} {live live' : List Nat} {σ σ' : Env V} {ds : Duplicates}

theorem Mirrors.vars (h : M.Mirrors g temps live σ σ') (hv : (Expr.localVar v).Within temps dups) :
    σ'.vars v.place = σ.vars v.place := by
  rcases hv _ (mem_singleton_self _) with ⟨ho, -⟩ | ⟨ho, hlt⟩
  · rw [LocalVar.place, ho]
    exact congrFun h.slots v.index
  · rw [LocalVar.place, ho]
    exact h.temps v.index hlt

variable {e : Expr}

section

variable (h : M.Mirrors g temps live σ σ')

include h

theorem Mirrors.replaces (he : e.Within temps dups) (hreads : e.readsOnly live = true) :
    ∀ x ∈ e.nodes, Replaces M g σ σ' x := by
  intro x hx
  have hread := all_eq_true.mp hreads x hx
  cases x with
  | localVar v =>
      refine h.vars (show (Expr.localVar v).Within temps dups from fun y hy => ?_)
      rw [mem_singleton.mp hy]
      exact he _ hx
  | dupLoad id => exact h.copies id (by simpa using hread)
  | _ => trivial

theorem Mirrors.eval (he : e.Within temps dups)
    (hreads : e.readsOnly live = true) (w : World V H) : M.eval σ' (e.mapNodes (.fillLoad g)) w = M.eval σ e w :=
  eval_fillLoad h.self e (h.replaces he hreads) w

theorem Mirrors.evalList {es} (hes : ∀ e ∈ es, e.Within temps dups)
    (hreads : es.all (Expr.readsOnly live) = true) (w : World V H) :
    M.evalList σ' (es.map (·.mapNodes (.fillLoad g))) w = M.evalList σ es w := by
  induction es generalizing w with
  | nil => rfl
  | cons e es ih =>
      simp only [mem_cons, forall_eq_or_imp] at hes
      simp only [all_cons, Bool.and_eq_true] at hreads
      simp only [map_cons, Model.evalList, h.eval hes.1 hreads.1, ih hes.2 hreads.2]

end

theorem eval_set_of_not_reads (h : e.readsPlace v = false) (d : Datum V) (w : World V H) :
    M.eval (σ.set v d) e w = M.eval σ e w := by
  have hleaf : ∀ x ∈ e.nodes, SameLeaf σ (σ.set v d) x := by
    intro x hx
    have hx' := any_eq_false.mp h x hx
    cases x with
    | localVar u => exact if_neg (by simpa using hx')
    | dupLoad id => rfl
    | _ => trivial
  have hself : (σ.set v d).self = σ.self := rfl
  exact eval_congr hself hleaf w

section

variable (h : M.Mirrors g temps live σ σ')

include h

theorem Mirrors.mono (hsub : ∀ id ∈ live', id ∈ live) : M.Mirrors g temps live' σ σ' :=
  { h with copies := fun id hid => h.copies id (hsub id hid) }

theorem Mirrors.set (v : LocalVar) (d : Datum V) :
    M.Mirrors g temps (Duplicates.surviving g v live) (σ.set v d) (σ'.set v d) where
  self := h.self
  slots := by
    funext n
    have hslot : σ'.vars (.slot, n) = σ.vars (.slot, n) := congrFun h.slots n
    simp only [Env.slots, Env.set, hslot]
  temps n hn := by simp only [Env.set, h.temps n hn]
  copies id hid w := by
    obtain ⟨hlive, hreads⟩ := mem_filter.mp hid
    rw [eval_set_of_not_reads (by simpa using hreads), h.copies id hlive]
    rfl

theorem Mirrors.copy {d} (hd : ∀ w, M.eval σ' (g id) w = (d, w)) : M.Mirrors g temps (id :: live) (σ.copy id d) σ' where
  self := h.self
  slots := h.slots
  temps := h.temps
  copies n hn w := by
    by_cases hid : n = id
    · subst hid
      simpa [Env.copy] using hd w
    · simpa [Env.copy, hid] using h.copies n ((mem_cons.mp hn).resolve_left hid) w

end

/-! ## Statements -/

variable {s : Stmt}

theorem Mirrors.finish (h : M.Mirrors g temps live σ σ') (hs : s.copyId? = none)
    (hwrites : ∀ v ∈ s.written?, (Expr.localVar v).Within temps dups) (args : List (Datum V)) (w : World V H) :
    M.Echoes g temps (s.written?.elim live (Duplicates.surviving g · live)) (M.finish σ s args w)
      (M.finish σ' (s.mapNodes (.fillLoad g)) args w) := by
  have hsurviving : ∀ v, M.Mirrors g temps (Duplicates.surviving g v live) σ σ' :=
    fun v => h.mono fun id hid => (mem_filter.mp hid).1
  cases s with
  | dupStore id => cases hs
  | store v e =>
      rcases args with _ | ⟨d, _ | ⟨d', args⟩⟩
      · exact ⟨rfl, rfl, h.slots, fun _ => hsurviving v⟩
      · exact ⟨rfl, rfl, (h.set v d).slots, fun _ => h.set v d⟩
      · exact ⟨rfl, rfl, h.slots, fun _ => hsurviving v⟩
  | increment v n =>
      have hv := h.vars (hwrites v rfl)
      simp only [Stmt.mapNodes, Model.finish, hv]
      exact ⟨rfl, rfl, (h.set v _).slots, fun _ => h.set v _⟩
  | leave e => exact ⟨rfl, rfl, h.slots, fun hnone => by cases hnone⟩
  | throw e =>
      rcases args with _ | ⟨d, _ | ⟨d', args⟩⟩
      · exact ⟨rfl, rfl, h.slots, fun _ => h⟩
      · exact ⟨rfl, rfl, h.slots, fun hnone => by cases hnone⟩
      · exact ⟨rfl, rfl, h.slots, fun _ => h⟩
  | _ => exact ⟨rfl, rfl, h.slots, fun _ => h⟩

theorem inputs_of_copyId (h : s.copyId? = none) (ds : Duplicates) : s.inputs ds = s.operands := by
  cases s with
  | dupStore id => cases h
  | _ => rfl

theorem Mirrors.exec (h : M.Mirrors g temps live σ σ') (hs : s.copyId? = none)
    (hreads : ∀ e ∈ s.operands, e.Within temps dups) (hlive : s.operands.all (Expr.readsOnly live) = true)
    (hwrites : ∀ v ∈ s.written?, (Expr.localVar v).Within temps dups) (w : World V H) :
    M.Echoes g temps (s.written?.elim live (Duplicates.surviving g · live)) (M.exec ds σ s w)
      (M.exec .empty σ' (s.mapNodes (.fillLoad g)) w) := by
  unfold Model.exec
  rw [inputs_of_copyId hs, inputs_of_copyId ((s.copyId?_mapNodes _).trans hs), Stmt.operands_mapNodes,
    h.evalList hreads hlive]
  exact h.finish hs hwrites _ _

theorem execAll_singleton (ds : Duplicates) (s : Located) (w : World V H) :
    M.execAll ds σ [s] w = M.exec ds σ s.stmt w := by
  simp only [execAll]
  split
  · rfl
  · rename_i hleft
    rw [← hleft]

theorem Echoes.append (xs xs' : List Located) {ys ys' w}
    (hx : M.Echoes g temps live (M.execAll ds σ xs w) (M.execAll .empty σ' xs' w))
    (hy : ∀ σ σ' w, M.Mirrors g temps live σ σ' →
      M.Echoes g temps live' (M.execAll ds σ ys w) (M.execAll .empty σ' ys' w)) :
    M.Echoes g temps live' (M.execAll ds σ (xs ++ ys) w) (M.execAll .empty σ' (xs' ++ ys') w) := by
  simp only [execAll_append]
  rw [hx.left]
  cases hleft : (M.execAll ds σ xs w).left with
  | some d => exact ⟨hx.world, hx.left, hx.slots, fun h => by rw [hleft] at h; cases h⟩
  | none =>
      rw [hx.world]
      exact hy _ _ _ (hx.mirrors hleft)

end Model

/-! ## Runs -/

variable {n : UInt16}

namespace Duplicates

/-- What is known where settling stands: the duplicates to come are new, and so are their temporaries. -/
structure Ready (temps : Nat) (p : Progress) (stmts : List Located) : Prop where
  nodup : (stmts.filterMap (·.stmt.copyId?)).Nodup
  fresh : ∀ id ∈ stmts.filterMap (·.stmt.copyId?), p.settled.lookup id = none
  temps : temps ≤ p.nextTemp.toNat
  count : p.nextTemp.toNat + (stmts.filterMap (·.stmt.copyId?)).length < 65536

structure Known (ds : Duplicates) (temps dups : Nat) (stmts : List Located) : Prop where
  reads : ∀ s ∈ stmts, ∀ e ∈ s.stmt.inputs ds, e.Within temps dups
  writes : ∀ s ∈ stmts, ∀ v ∈ s.stmt.written?, (Expr.localVar v).Within temps dups

section

variable {ds : Duplicates} {p : Progress} {temps dups id : Nat} {s : Located} {rest : List Located}

theorem Known.tail (h : Known ds temps dups (s :: rest)) : Known ds temps dups rest where
  reads l hl := h.reads l (mem_cons_of_mem _ hl)
  writes l hl := h.writes l (mem_cons_of_mem _ hl)

theorem Known.value (h : Known ds temps dups (s :: rest)) {value} (hs : s.stmt = .dupStore id)
    (hv : ds.get? id = some value) : value.Within temps dups :=
  h.reads s (mem_cons_self ..) value (by simp [hs, Stmt.inputs, hv])

variable (h : Ready temps p (s :: rest))

include h

theorem Ready.keep (hs : s.stmt.copyId? = none) : Ready temps p rest := by
  obtain ⟨hnodup, hfresh, htemps, hcount⟩ := h
  simp only [filterMap_cons, hs] at hnodup hfresh hcount
  exact ⟨hnodup, hfresh, htemps, hcount⟩

variable (hs : s.stmt.copyId? = some id)

include hs

theorem Ready.head : p.settled.lookup id = none ∧ id ∉ rest.filterMap (·.stmt.copyId?) := by
  obtain ⟨hnodup, hfresh, -, -⟩ := h
  simp only [filterMap_cons, hs] at hnodup hfresh
  exact ⟨hfresh id (mem_cons_self ..), (nodup_cons.mp hnodup).1⟩

theorem Ready.tail : Ready temps p rest := by
  obtain ⟨hnodup, hfresh, htemps, hcount⟩ := h
  simp only [filterMap_cons, hs, length_cons] at hnodup hfresh hcount
  exact ⟨(nodup_cons.mp hnodup).2, fun n hn => hfresh n (mem_cons_of_mem _ hn), htemps, by omega⟩

theorem Ready.toNat_succ : (p.nextTemp + 1).toNat = p.nextTemp.toNat + 1 := by
  have hcount := h.count
  simp only [filterMap_cons, hs, length_cons] at hcount
  simp
  omega

theorem Ready.settled (x : Settlement) (hle : p.nextTemp.toNat ≤ n.toNat) (hn : n.toNat ≤ p.nextTemp.toNat + 1) :
    Ready temps ⟨(id, x) :: p.settled, n⟩ rest := by
  have hid := (h.head hs).2
  obtain ⟨hnodup, hfresh, htemps, hcount⟩ := h
  simp only [filterMap_cons, hs, length_cons] at hnodup hfresh hcount
  refine ⟨(nodup_cons.mp hnodup).2, fun k hk => ?_, Nat.le_trans htemps hle, by simp only; omega⟩
  have hne : k ≠ id := fun heq => hid (heq ▸ hk)
  rw [lookup_cons, beq_eq_false_iff_ne.mpr hne]
  exact hfresh k (mem_cons_of_mem _ hk)

end

end Duplicates

namespace Model

variable {g : Nat → Expr} {temps dups : Nat} {live : List Nat} {σ σ' : Env V} {ds : Duplicates} {id : Nat}
  {value : Expr} {d : Datum V} {w w' : World V H}

theorem exec_dupStore (hv : ds.get? id = some value) (he : M.eval σ value w = (d, w')) :
    M.exec ds σ (.dupStore id) w = ⟨σ.copy id d, w', none⟩ := by
  simp [exec, Stmt.inputs, hv, evalList, he, finish]

theorem Mirrors.forget (h : M.Mirrors g temps live σ σ') (id : Nat) (d : Datum V) :
    M.Mirrors g temps (live.filter (· != id)) (σ.copy id d) σ' where
  self := h.self
  slots := h.slots
  temps := h.temps
  copies n hn w := by
    obtain ⟨hlive, hne⟩ := mem_filter.mp hn
    have hid : n ≠ id := by simpa using hne
    simpa [Env.copy, hid] using h.copies n hlive w

theorem Mirrors.setTemp (h : M.Mirrors g temps live σ σ') (hn : temps ≤ n.toNat) (ty : ErasedType) (d : Datum V) :
    M.Mirrors g temps (Duplicates.surviving g (.ofTemp n ty) live) σ (σ'.set (.ofTemp n ty) d) where
  self := h.self
  slots := ((Env.grows_set σ' n 0 ty d).slots).trans h.slots
  temps k hk := ((Env.grows_set σ' n 0 ty d).temps k (by omega)).trans (h.temps k hk)
  copies id hid w := by
    obtain ⟨hlive, hreads⟩ := mem_filter.mp hid
    rw [eval_set_of_not_reads (by simpa using hreads), h.copies id hlive]

section

variable {s next : Located} {v : LocalVar}

theorem exec_fill_store (he : M.eval σ' (value.mapNodes (.fillLoad g)) w = (d, w')) :
    M.exec .empty σ' ((s.withStmt (.store v value)).fill g).stmt w = ⟨σ'.set v d, w', none⟩ := by
  simp [Located.fill, Located.withStmt, Stmt.mapNodes, exec, Stmt.inputs, Stmt.operands, evalList, he, finish]

variable (h : M.Mirrors g temps live σ σ') (hs : s.stmt = .dupStore id) (hv : ds.get? id = some value)
  (hwithin : value.Within temps dups) (hreads : value.readsOnly live = true)

include h hs hv hwithin hreads

theorem Mirrors.drop (hkept : value.isCalm = true ∨ value.hasSideEffects = true) (w : World V H) :
    M.Echoes g temps (live.filter (· != id)) (M.execAll ds σ [s] w)
      (M.execAll .empty σ' ((if value.hasSideEffects then [s.withStmt (.expr value)] else []).map (·.fill g)) w) := by
  obtain ⟨d, w', he⟩ : ∃ d w', M.eval σ value w = (d, w') := ⟨_, _, rfl⟩
  have he' : M.eval σ' (value.mapNodes (.fillLoad g)) w = (d, w') := (h.eval hwithin hreads w).trans he
  rw [execAll_singleton, hs, exec_dupStore hv he]
  split
  · rw [map_singleton, execAll_singleton]
    have hexec : M.exec .empty σ' ((s.withStmt (.expr value)).fill g).stmt w = ⟨σ', w', none⟩ := by
      simp [Located.fill, Located.withStmt, Stmt.mapNodes, Model.exec, Stmt.inputs, Stmt.operands, Model.evalList, he',
        Model.finish]
    rw [hexec]
    exact ⟨rfl, rfl, h.slots, fun _ => h.forget id d⟩
  · rename_i heffects
    obtain ⟨x, hx⟩ := eval_calm (hkept.resolve_right heffects)
    rw [hx] at he
    cases he
    exact ⟨rfl, rfl, h.slots, fun _ => h.forget id d⟩

theorem Mirrors.inline (hcalm : value.isCalm = true) (hg : g id = value.mapNodes (.fillLoad g)) (w : World V H) :
    M.Echoes g temps (id :: live) (M.execAll ds σ [s] w) (M.execAll .empty σ' [] w) := by
  obtain ⟨d, hd⟩ := eval_calm hcalm
  rw [execAll_singleton, hs, exec_dupStore hv (hd w)]
  refine ⟨rfl, rfl, h.slots, fun _ => h.copy fun w => ?_⟩
  rw [hg, h.eval hwithin hreads, hd]

theorem Mirrors.save {ty} (hn : temps ≤ n.toNat) (hg : g id = .localVar (.ofTemp n ty)) (w : World V H) :
    M.Echoes g temps (id :: Duplicates.surviving g (.ofTemp n ty) live) (M.execAll ds σ [s] w)
      (M.execAll .empty σ' [(s.withStmt (.store (.ofTemp n ty) value)).fill g] w) := by
  obtain ⟨d, w', he⟩ : ∃ d w', M.eval σ value w = (d, w') := ⟨_, _, rfl⟩
  have hset := h.setTemp hn ty d
  rw [execAll_singleton, execAll_singleton, hs, exec_dupStore hv he,
    exec_fill_store ((h.eval hwithin hreads w).trans he)]
  refine ⟨rfl, rfl, hset.slots, fun _ => hset.copy fun w => ?_⟩
  simp [hg, Model.eval, Env.set]

theorem Mirrors.join (hnext : next.stmt = .store v (.dupLoad id)) (hg : g id = .localVar v) (w : World V H) :
    M.Echoes g temps (id :: Duplicates.surviving g v live) (M.execAll ds σ [s, next] w)
      (M.execAll .empty σ' [(next.withStmt (.store v value)).fill g] w) := by
  obtain ⟨d, w', he⟩ : ∃ d w', M.eval σ value w = (d, w') := ⟨_, _, rfl⟩
  have hset := h.set v d
  have hexec : M.execAll ds σ [s, next] w = ⟨(σ.set v d).copy id d, w', none⟩ := by
    simp only [execAll, hs, exec_dupStore hv he, hnext]
    simp [Model.exec, Stmt.inputs, Stmt.operands, Model.evalList, Model.eval, Model.finish, Env.copy, Env.set]
  rw [hexec, execAll_singleton, exec_fill_store ((h.eval hwithin hreads w).trans he)]
  refine ⟨rfl, rfl, hset.slots, fun _ => hset.copy fun w => ?_⟩
  simp [hg, Model.eval, Env.set]

end

end Model

namespace Duplicates

theorem standIn_var {settled depth} (hd : id < depth)
    (hv : settled.lookup id = some (.var v)) : standIn settled depth id = .localVar v := by
  obtain ⟨k, rfl⟩ := Nat.exists_eq_succ_of_ne_zero (Nat.ne_of_gt (Nat.zero_lt_of_lt hd))
  have hsucc := standIn_succ settled k id
  simpa only [hv] using hsucc

namespace Settles

variable {g : Nat → Expr} {temps dups depth : Nat} {live live' : List Nat} {σ σ' : Env V} {ds : Duplicates}
  {total : Nat → Nat} {p p' : Progress} {stmts out : List Located}

theorem echoes (h : Settles ds total p stmts p' out) (hg : g = standIn p'.settled depth) (hnested : Nested p'.settled)
    (hdepth : ∀ id ∈ stmts.filterMap (·.stmt.copyId?), id < depth) (hready : Ready temps p stmts)
    (hknown : Known ds temps dups stmts) (hm : M.Mirrors g temps live σ σ')
    (hlive : ds.liveAfter p'.settled g live stmts = some live') (w : World V H) :
    M.Echoes g temps live' (M.execAll ds σ stmts w) (M.execAll .empty σ' (out.map (·.fill g)) w) := by
  induction h generalizing live σ σ' w with
  | nil =>
      cases hlive
      exact ⟨rfl, rfl, hm.slots, fun _ => hm⟩
  | @absent p s rest id p' out hs hv h ih =>
      have hid : s.stmt.copyId? = some id := by rw [hs]; rfl
      obtain ⟨hnone, hnew⟩ := hready.head hid
      have hlookup := (h.lookup_eq hnew).trans hnone
      simp only [filterMap_cons, hid, mem_cons, forall_eq_or_imp] at hdepth
      have hexec : M.exec ds σ s.stmt w = ⟨σ, w, none⟩ := by
        simp [Model.exec, hs, Stmt.inputs, hv, Model.evalList, Model.finish]
      unfold liveAfter at hlive
      simp only [hs, Stmt.inputs, hv, hlookup] at hlive
      simp only [Model.execAll, hexec]
      exact ih hg hnested hdepth.2 (hready.tail hid) hknown.tail
        (hm.mono fun n hn => (mem_filter.mp hn).1) hlive w
  | @drop p s rest id value p' out hs hv _ h ih =>
      have hid : s.stmt.copyId? = some id := by rw [hs]; rfl
      obtain ⟨hnone, hnew⟩ := hready.head hid
      simp only [filterMap_cons, hid, mem_cons, forall_eq_or_imp] at hdepth
      obtain ⟨hreads, hlive⟩ := liveAfter_dupStore hs hv hlive
      obtain ⟨hkept, hrest⟩ := hlive.1 ((h.lookup_eq hnew).trans hnone)
      rw [map_append]
      exact Model.Echoes.append [s] _ (hm.drop hs hv (hknown.value hs hv) hreads hkept w)
        fun σ σ' w hm => ih hg hnested hdepth.2 (hready.tail hid) hknown.tail hm hrest w
  | @inline p s rest id value p' out hs hv h ih =>
      have hid : s.stmt.copyId? = some id := by rw [hs]; rfl
      obtain ⟨hnone, hnew⟩ := hready.head hid
      have hlookup : p'.settled.lookup id = some (.inlined value) := (h.lookup_eq hnew).trans (by simp)
      simp only [filterMap_cons, hid, mem_cons, forall_eq_or_imp] at hdepth
      obtain ⟨hreads, hlive⟩ := liveAfter_dupStore hs hv hlive
      obtain ⟨hcalm, hrest⟩ := hlive.2.1 value hlookup
      have hstand : g id = value.mapNodes (.fillLoad g) := by
        rw [hg]
        exact hnested.standIn_inlined hdepth.1 hlookup
      exact Model.Echoes.append [s] []
        (hm.inline hs hv (hknown.value hs hv) hreads hcalm hstand w)
        fun σ σ' w hm => ih hg hnested hdepth.2 (hready.settled hid _ (Nat.le_refl _) (Nat.le_succ _)) hknown.tail hm
          hrest w
  | @save p s rest id value p' out hs hv hnext h ih =>
      have hid : s.stmt.copyId? = some id := by rw [hs]; rfl
      obtain ⟨hnone, hnew⟩ := hready.head hid
      have hlookup : p'.settled.lookup id = some (.var (.ofTemp p.nextTemp value.ty)) :=
        (h.lookup_eq hnew).trans (by simp)
      simp only [filterMap_cons, hid, mem_cons, forall_eq_or_imp] at hdepth
      obtain ⟨hreads, hlive⟩ := liveAfter_dupStore hs hv hlive
      have hstand : g id = .localVar (.ofTemp p.nextTemp value.ty) := by
        rw [hg]
        exact standIn_var hdepth.1 hlookup
      have hnextTemp := hready.toNat_succ hid
      exact Model.Echoes.append [s] _ (hm.save hs hv (hknown.value hs hv) hreads hready.temps hstand w)
        fun σ σ' w hm => ih hg hnested hdepth.2 (hready.settled hid _ (by omega) (by omega)) hknown.tail hm
          ((hlive.2.2 _ hlookup).1 hnext) w
  | @join p s next rest id value v p' out hs hv hnext h ih =>
      have hid : s.stmt.copyId? = some id := by rw [hs]; rfl
      obtain ⟨hstmt, -⟩ := storedTo?_eq_some hnext
      have hkeep : next.stmt.copyId? = none := by rw [hstmt]; rfl
      obtain ⟨hnone, hnew⟩ := hready.head hid
      simp only [filterMap_cons, hkeep] at hnew
      have hlookup : p'.settled.lookup id = some (.var v) := (h.lookup_eq hnew).trans (by simp)
      simp only [filterMap_cons, hid, hkeep, mem_cons, forall_eq_or_imp] at hdepth
      obtain ⟨hreads, hlive⟩ := liveAfter_dupStore hs hv hlive
      have hstand : g id = .localVar v := by
        rw [hg]
        exact standIn_var hdepth.1 hlookup
      exact Model.Echoes.append [s, next] _ (hm.join hs hv (hknown.value hs hv) hreads hstmt hstand w)
        fun σ σ' w hm => ih hg hnested hdepth.2
          ((hready.settled hid _ (Nat.le_refl _) (Nat.le_succ _)).keep hkeep) hknown.tail.tail hm
          ((hlive.2.2 _ hlookup).2 next rest rfl (by simp [hnext])) w
  | @keep p s rest p' out hs h ih =>
      simp only [filterMap_cons, hs] at hdepth
      unfold liveAfter at hlive
      split at hlive
      · rename_i hinputs
        have hreads := hknown.reads s (mem_cons_self ..)
        rw [Model.inputs_of_copyId hs] at hinputs hreads
        have hrest : ds.liveAfter p'.settled g (s.stmt.written?.elim live (surviving g · live)) rest = some live' := by
          cases hstmt : s.stmt with
          | dupStore id =>
              rw [hstmt] at hs
              cases hs
          | _ => simpa [hstmt] using hlive
        refine Model.Echoes.append [s] [s.fill g] ?_
          fun σ σ' w hm => ih hg hnested hdepth (hready.keep hs) hknown.tail hm hrest w
        rw [Model.execAll_singleton, Model.execAll_singleton]
        exact hm.exec hs hreads hinputs (hknown.writes s (mem_cons_self ..)) w
      · cases hlive

end Settles

/-! ## Blocks -/

theorem resolve_singleton (ds : Duplicates) (b : Block) (nextTemp : UInt16) :
    ∃ b', (ds.resolve [b] nextTemp).1 = [b'] := by
  unfold resolve
  split <;> exact ⟨_, rfl⟩

/-- Whatever a block reads of its duplicates is still what stands for it. -/
def undisturbed (ds : Duplicates) (b : Block) (nextTemp : UInt16) : Bool :=
  let p := (ds.settleStmts (ds.totalUses [b]) (ds.usesAt b) ⟨[], nextTemp⟩ b.stmts).1
  match ds.liveAfter p.settled (standIn p.settled (ds.values.length + 1)) [] b.stmts with
  | some live => b.exit.operand?.all (Expr.readsOnly live)
  | none => false

end Duplicates

namespace Model

variable {g : Nat → Expr} {temps dups : Nat} {live : List Nat} {σ σ' : Env V}

theorem Mirrors.decide (h : M.Mirrors g temps live σ σ') {x} (hx : ∀ e ∈ x.operand?, e.Within temps dups)
    (hreads : x.operand?.all (Expr.readsOnly live) = true) (w : World V H) :
    M.decide σ' (x.mapNodes (.fillLoad g)) w = M.decide σ x w := by
  cases x with
  | cond e taken other | switch e default cases =>
      simp only [Exit.mapNodes, Model.decide, h.eval (hx e rfl) (by simpa [Exit.operand?] using hreads)]
  | _ => rfl

theorem Echoes.conclude {r r'} (h : M.Echoes g temps live r r') {x}
    (hx : ∀ e ∈ x.operand?, e.Within temps dups) (hreads : x.operand?.all (Expr.readsOnly live) = true) :
    M.conclude r' (x.mapNodes (.fillLoad g)) = M.conclude r x := by
  unfold Model.conclude
  rw [h.left, h.world, h.slots]
  cases hleft : r.left with
  | some d => rfl
  | none => simp only [(h.mirrors hleft).decide hx hreads]

end Model

namespace Frame.Tidy

variable {f : Frame}

theorem known (ht : f.Tidy) : f.duplicates.Known f.nextTemp.toNat f.duplicates.values.length f.out where
  reads s hs e he := by
    cases hstmt : s.stmt with
    | dupStore id =>
        rw [hstmt] at he
        have hget : f.duplicates.get? id = some e := by simpa [Stmt.inputs] using he
        have hlt : id < f.duplicates.values.length := (List.getElem?_eq_some_iff.mp hget).1
        exact (ht.values id e hget).mono (Nat.le_refl _) (Nat.le_of_lt hlt)
    | _ =>
        rw [hstmt] at he
        exact ht.reads s hs e (by rwa [hstmt])
  writes := ht.writes

theorem ready (ht : f.Tidy) (hcount : f.out.length < 65536) :
    Duplicates.Ready f.nextTemp.toNat ⟨[], f.nextTemp⟩ f.out where
  nodup := by
    rw [ht.copies]
    exact nodup_range
  fresh _ _ := rfl
  temps := Nat.le_refl _
  count := by
    have := ht.count
    rw [ht.copies, length_range]
    exact Nat.lt_of_le_of_lt this hcount

end Frame.Tidy

namespace Model

theorem execBlock_resolve {f : Frame} {b b'} (ht : f.Tidy) (hcount : f.out.length < 65536)
    (hstmts : b.stmts = f.out) (hexit : ∀ e ∈ b.exit.operand?, f.Knows e)
    (hu : f.duplicates.undisturbed b f.nextTemp = true) (hb' : (f.duplicates.resolve [b] f.nextTemp).1 = [b'])
    (σ : Env V) (w : World V H) : M.execBlock .empty σ b' w = M.execBlock f.duplicates σ b w := by
  unfold Duplicates.resolve at hb'
  by_cases hempty : f.duplicates.values.isEmpty = true
  · have hds : f.duplicates = .empty := by
      rw [Duplicates.empty, ← List.isEmpty_iff.mp hempty]
    rw [if_pos hempty] at hb'
    cases hb'
    rw [hds]
  · rw [if_neg hempty] at hb'
    simp only [Duplicates.undisturbed] at hu
    have hsettles := Duplicates.settles_settleStmts f.duplicates (f.duplicates.totalUses [b]) (f.duplicates.usesAt b)
      ⟨[], f.nextTemp⟩ b.stmts
    simp only [Duplicates.settleBlocks] at hb'
    generalize f.duplicates.settleStmts (f.duplicates.totalUses [b]) (f.duplicates.usesAt b)
      ⟨[], f.nextTemp⟩ b.stmts = r at hu hsettles hb'
    obtain ⟨p, out⟩ := r
    cases hb'
    split at hu
    · rename_i live hlive
      have hnested : Duplicates.Nested p.settled := by
        intro id value hvalue n hn
        have hget := hsettles.inlined (fun _ _ h => by cases h) id value hvalue
        exact ht.values id value hget _ hn
      rw [hstmts] at hsettles hlive
      have hmirrors : M.Mirrors (Duplicates.standIn p.settled (f.duplicates.values.length + 1)) f.nextTemp.toNat [] σ σ :=
        ⟨rfl, rfl, fun _ _ => rfl, fun _ h => by cases h⟩
      have hechoes := hsettles.echoes rfl hnested
        (fun id hid => by rw [ht.copies, mem_range] at hid; exact Nat.lt_succ_of_lt hid)
        (ht.ready hcount) ht.known hmirrors hlive w
      rw [Duplicates.replaceLoads_eq_fillLoad]
      unfold execBlock
      rw [hstmts, ← hechoes.conclude hexit hu]
      rfl
    · cases hu

end Model

end JvmLift
