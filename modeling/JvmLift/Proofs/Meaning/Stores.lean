import JvmLift.Proofs.Meaning.Memory
import Mathlib.Data.List.Induction

/-!
# Stores one after the other

Stores one after the other do the same as all at once unless one of them disturbs what is evaluated behind it: it
changes a variable that is read there, or both operate on the heap.
-/
namespace JvmLift

open List

namespace Expr

def place? (e : Expr) : Option Place := e.read?.map LocalVar.place

def places (e : Expr) : List Place := e.vars.map LocalVar.place

variable {p : Place}

theorem eq_localVar_of_place? {e : Expr} (h : e.place? = some p) : ∃ v, e = .localVar v ∧ v.place = p := by
  cases e with
  | localVar v => exact ⟨v, rfl, Option.some.inj h⟩
  | _ => cases h

theorem place?_of_not_calm {e : Expr} (h : e.isCalm = false) : e.place? = none := by
  cases e with
  | localVar v => cases h
  | _ => rfl

end Expr

/-- A meaning of expressions that never throw. They depend on the rest of the state only if they operate on
the heap. -/
structure Evaluator (V W : Type) where
  eval : Expr → (Place → V) → W → V × W
  eval_localVar : ∀ v ρ w, eval (.localVar v) ρ w = (ρ v.place, w)
  eval_congr : ∀ e : Expr, DependsOn e.vars (eval e)
  eval_calm : ∀ e ρ, e.isCalm = true → ∃ d, ∀ w, eval e ρ w = (d, w)

namespace Evaluator

variable {V W : Type} (E : Evaluator V W)

def value (x : Memory V W) (e : Expr) : V := (E.eval e x.vars x.rest).1

def store (x : Memory V W) (s : LocalVar × Expr) : Memory V W :=
  let (d, rest) := E.eval s.2 x.vars x.rest
  { x with rest }.set s.1 d

def storeAll (x : Memory V W) (stores : List (LocalVar × Expr)) : Memory V W := stores.foldl E.store x

/-- Every variable that is stored gets the value that its expression had before the first store, and nothing
else changes: neither what is held back, nor other variables, nor the rest but by the one expression that
operates on the heap. -/
structure CarriesOver (stores : List (LocalVar × Expr)) (held : List Expr) (x : Memory V W) : Prop where
  stored : ∀ s ∈ stores, (E.storeAll x stores).vars s.1.place = E.value x s.2
  held : ∀ e ∈ held, E.value (E.storeAll x stores) e = E.value x e
  others : ∀ p, p ∉ stores.map (·.1.place) → (E.storeAll x stores).vars p = x.vars p
  world : (E.storeAll x stores).rest =
    (stores.find? fun s => !s.2.isCalm).elim x.rest fun s => (E.eval s.2 x.vars x.rest).2

end Evaluator

/-- A store changes a variable that an expression reads, or both operate on the heap. -/
def Disturbs (s : LocalVar × Expr) (e : Expr) : Prop :=
  s.1.place ∈ e.places ∧ s.2.place? ≠ some s.1.place ∨ s.2.isCalm = false ∧ e.isCalm = false

/-- No store disturbs a later one or what is held back. -/
def Undisturbed (stores : List (LocalVar × Expr)) (held : List Expr) : Prop :=
  stores.Pairwise (fun s t => ¬Disturbs s t.2) ∧ ∀ s ∈ stores, ∀ e ∈ held, ¬Disturbs s e

instance (s : LocalVar × Expr) (e : Expr) : Decidable (Disturbs s e) := by unfold Disturbs; infer_instance

instance (stores : List (LocalVar × Expr)) (held : List Expr) : Decidable (Undisturbed stores held) := by
  unfold Undisturbed; infer_instance

/-! ## Undisturbed stores -/

namespace Evaluator

variable {V W : Type} {E : Evaluator V W} {x : Memory V W} {stores : List (LocalVar × Expr)}

@[simp] theorem storeAll_append_singleton (s : LocalVar × Expr) :
    E.storeAll x (stores ++ [s]) = E.store (E.storeAll x stores) s := by
  simp [storeAll]

theorem vars_store_self (s : LocalVar × Expr) : (E.store x s).vars s.1.place = E.value x s.2 :=
  Memory.set_vars_self ..

variable {s : LocalVar × Expr}

theorem vars_store_of_ne (h : p ≠ s.1.place) : (E.store x s).vars p = x.vars p :=
  Memory.set_vars_of_ne _ _ h

theorem vars_storeAll_of_notMem (h : p ∉ stores.map (·.1.place)) : (E.storeAll x stores).vars p = x.vars p := by
  induction stores using reverseRecOn with
  | nil => rfl
  | append_singleton stores s ih =>
      simp only [map_append, map_cons, map_nil, mem_append, mem_singleton, not_or] at h
      rw [storeAll_append_singleton, vars_store_of_ne h.2, ih h.1]

theorem value_localVar {v} : E.value x (.localVar v) = x.vars v.place := by
  simp [value, E.eval_localVar]

variable {e : Expr}

theorem eval_vars_storeAll (hstored : ∀ s ∈ stores, (E.storeAll x stores).vars s.1.place = E.value x s.2)
    (h : ∀ s ∈ stores, ¬Disturbs s e) (w : W) : E.eval e (E.storeAll x stores).vars w = E.eval e x.vars w := by
  refine congrFun (E.eval_congr _ _ _ fun v hv => ?_) w
  by_cases hmem : v.place ∈ stores.map (·.1.place)
  · obtain ⟨s, hs, hsv⟩ := mem_map.mp hmem
    have hread : s.1.place ∈ e.places := hsv ▸ mem_map_of_mem hv
    have hself : s.2.place? = some s.1.place := not_not.mp fun hne => h s hs (.inl ⟨hread, hne⟩)
    obtain ⟨u, hu, hplace⟩ := Expr.eq_localVar_of_place? hself
    rw [← hsv, hstored s hs, hu, value_localVar, hplace]
  · exact vars_storeAll_of_notMem hmem

theorem find?_eq_none_of_not_calm (hun : ∀ s ∈ stores, ¬Disturbs s e) (he : e.isCalm = false) :
    (stores.find? fun s => !s.2.isCalm) = none := by
  refine find?_eq_none.mpr fun s hs hcalm => hun s hs (.inr ⟨?_, he⟩)
  simpa using hcalm

theorem CarriesOver.value_eq (h : E.CarriesOver stores [] x) (hun : ∀ s ∈ stores, ¬Disturbs s e) :
    E.value (E.storeAll x stores) e = E.value x e := by
  unfold value
  rw [eval_vars_storeAll h.stored hun]
  cases he : e.isCalm with
  | true =>
      obtain ⟨d, hd⟩ := E.eval_calm e x.vars he
      rw [hd, hd]
  | false => rw [h.world, find?_eq_none_of_not_calm hun he, Option.elim_none]

theorem CarriesOver.append_singleton (h : E.CarriesOver stores [] x) (hnew : s.1.place ∉ stores.map (·.1.place))
    (hun : ∀ t ∈ stores, ¬Disturbs t s.2) : E.CarriesOver (stores ++ [s]) [] x := by
  refine ⟨fun t ht => ?_, nofun, fun p hp => vars_storeAll_of_notMem hp, ?_⟩
  · rw [storeAll_append_singleton]
    rcases mem_append.mp ht with ht | ht
    · have hne : t.1.place ≠ s.1.place := fun heq => hnew (heq ▸ mem_map_of_mem ht)
      rw [vars_store_of_ne hne, h.stored t ht]
    · rw [mem_singleton.mp ht, vars_store_self, h.value_eq hun]
  · have hworld : (E.storeAll x (stores ++ [s])).rest = (E.eval s.2 x.vars (E.storeAll x stores).rest).2 := by
      rw [storeAll_append_singleton, ← eval_vars_storeAll h.stored hun]
      rfl
    rw [hworld]
    cases hs : s.2.isCalm with
    | true =>
        obtain ⟨d, hd⟩ := E.eval_calm s.2 x.vars hs
        simp [hd, h.world, hs]
    | false => simp [h.world, find?_eq_none_of_not_calm hun hs, hs]

theorem carriesOver_nil_of_pairwise (hnodup : (stores.map (·.1.place)).Nodup)
    (h : stores.Pairwise fun s t => ¬Disturbs s t.2) (x : Memory V W) : E.CarriesOver stores [] x := by
  induction stores using reverseRecOn with
  | nil => exact ⟨nofun, nofun, fun _ _ => rfl, rfl⟩
  | append_singleton stores s ih =>
      rw [map_append, nodup_append] at hnodup
      rw [pairwise_append] at h
      refine (ih hnodup.1 h.1).append_singleton (fun hmem => ?_) fun t ht => h.2.2 t ht s (mem_singleton_self s)
      exact hnodup.2.2 _ hmem s.1.place (by simp) rfl

variable {held : List Expr}

theorem carriesOver_of_undisturbed (hnodup : (stores.map (·.1.place)).Nodup)
    (h : Undisturbed stores held) (x : Memory V W) : E.CarriesOver stores held x := by
  have hstores := carriesOver_nil_of_pairwise (E := E) hnodup h.1 x
  exact { hstores with held := fun e he => hstores.value_eq fun s hs => h.2 s hs e he }

end Evaluator

/-! ## Values that record how they came to be -/

/-- What a variable held at the start, or what an expression made at some time of what it read. -/
inductive Provenance where
  | start (p : Place)
  | made (e : Expr) (reads : List Provenance) (time : Nat)

/-- The time goes on with every expression that operates on the heap. -/
def Evaluator.provenance : Evaluator Provenance Nat where
  eval e ρ n :=
    match e.place? with
    | some p => (ρ p, n)
    | none => if e.isCalm then (.made e (e.places.map ρ) 0, n) else (.made e (e.places.map ρ) n, n + 1)
  eval_localVar _ _ _ := rfl
  eval_congr e ρ ρ' h := by
    have hmap : e.places.map ρ = e.places.map ρ' := by simpa [Expr.places] using h
    cases hp : e.place? with
    | some p =>
        obtain ⟨v, rfl, rfl⟩ := Expr.eq_localVar_of_place? hp
        funext n
        simp only [h v (by simp)]
    | none => simp only [hmap]
  eval_calm e ρ h := by
    cases e.place? with
    | some p => exact ⟨ρ p, fun _ => rfl⟩
    | none => exact ⟨.made e (e.places.map ρ) 0, fun _ => by simp only [h, if_true]⟩

namespace Evaluator

variable {stores : List (LocalVar × Expr)} {e : Expr}

def genesis : Memory Provenance Nat := ⟨.start, 0⟩

theorem value_genesis_ne (h : e.place? ≠ some p) : provenance.value genesis e ≠ .start p := by
  unfold value provenance
  dsimp only
  split
  · rename_i q hq
    rintro ⟨⟩
    exact h hq
  · split <;> exact nofun

theorem value_ne_of_disturbs (h : provenance.CarriesOver stores [] genesis) (hs : s ∈ stores)
    (hd : Disturbs s e) : provenance.value (provenance.storeAll genesis stores) e ≠ provenance.value genesis e := by
  rcases hd with ⟨hread, hne⟩ | ⟨hcalm, he⟩
  · have hchanged : (provenance.storeAll genesis stores).vars s.1.place ≠ .start s.1.place := by
      rw [h.stored s hs]
      exact value_genesis_ne hne
    intro heq
    cases hp : e.place? with
    | some p =>
        obtain ⟨v, rfl, rfl⟩ := Expr.eq_localVar_of_place? hp
        obtain hplace : s.1.place = v.place := by simpa [Expr.places] using hread
        rw [value_localVar, value_localVar, ← hplace] at heq
        exact hchanged heq
    | none =>
        have hreads : e.places.map (provenance.storeAll genesis stores).vars = e.places.map .start := by
          unfold value provenance at heq
          simp only [hp] at heq
          split at heq <;> exact (Provenance.made.inj heq).2.1
        exact hchanged (map_inj_left.mp hreads _ hread)
  · have hlater : (provenance.storeAll genesis stores).rest = 1 := by
      rw [h.world]
      cases hfind : stores.find? fun s => !s.2.isCalm with
      | none =>
          have hno := find?_eq_none.mp hfind s hs
          simp [hcalm] at hno
      | some t =>
          have ht : t.2.isCalm = false := by simpa using find?_some hfind
          simp [provenance, Expr.place?_of_not_calm ht, ht, genesis]
    intro heq
    unfold value at heq
    rw [hlater] at heq
    simp [provenance, Expr.place?_of_not_calm he, he, genesis] at heq

theorem pairwise_of_stored (hnodup : (stores.map (·.1.place)).Nodup)
    (h : ∀ s ∈ stores, (provenance.storeAll genesis stores).vars s.1.place = provenance.value genesis s.2) :
    stores.Pairwise fun s t => ¬Disturbs s t.2 := by
  induction stores using reverseRecOn with
  | nil => exact .nil
  | append_singleton stores s ih =>
      rw [map_append, nodup_append] at hnodup
      have hbefore : ∀ t ∈ stores, (provenance.storeAll genesis stores).vars t.1.place = provenance.value genesis t.2 := by
        intro t ht
        have hne : t.1.place ≠ s.1.place := fun heq => hnodup.2.2 _ (mem_map_of_mem ht) s.1.place (by simp) heq
        rw [← h t (mem_append_left _ ht), storeAll_append_singleton, vars_store_of_ne hne]
      have hpairs := ih hnodup.1 hbefore
      refine pairwise_append.mpr ⟨hpairs, pairwise_singleton _ s, fun t ht t' ht' hd => ?_⟩
      obtain rfl := mem_singleton.mp ht'
      refine value_ne_of_disturbs (carriesOver_nil_of_pairwise hnodup.1 hpairs genesis) ht hd ?_
      rw [← vars_store_self, ← storeAll_append_singleton]
      exact h t' (by simp)

end Evaluator

variable {stores : List (LocalVar × Expr)}

theorem carriesOver_iff_undisturbed (hnodup : (stores.map (·.1.place)).Nodup) :
    (∀ (V W : Type) (E : Evaluator V W) (x : Memory V W), E.CarriesOver stores held x) ↔ Undisturbed stores held := by
  refine ⟨fun h => ?_, fun h V W E x => Evaluator.carriesOver_of_undisturbed hnodup h x⟩
  have hfree := h _ _ Evaluator.provenance Evaluator.genesis
  have hpairs := Evaluator.pairwise_of_stored hnodup hfree.stored
  refine ⟨hpairs, fun s hs e he hd => ?_⟩
  refine Evaluator.value_ne_of_disturbs ?_ hs hd (hfree.held e he)
  exact Evaluator.carriesOver_nil_of_pairwise hnodup hpairs _

/-! ## Stores as statements -/

namespace Model

variable {V H : Type} (M : Model V H)

def evaluator (copies : Nat → Datum V) (self : Datum V) : Evaluator (Datum V) (World V H) where
  eval e ρ w := M.eval ⟨ρ, copies, self⟩ e w
  eval_localVar _ _ _ := by simp only [eval]
  eval_congr e ρ ρ' h := by
    refine funext fun w => eval_congr (by rfl) (fun x hx => ?_) w
    cases x with
    | localVar v => exact h v (mem_filterMap.mpr ⟨_, hx, rfl⟩)
    | dupLoad id => rfl
    | _ => trivial
  eval_calm _ _ h := eval_calm h

theorem execAll_stores (ds : Duplicates) {tail}
    (h : tail.map (·.stmt) = stores.map fun s => .store s.1 s.2) (σ : Env V) (w : World V H) :
    let x := (M.evaluator σ.copies σ.self).storeAll ⟨σ.vars, w⟩ stores
    M.execAll ds σ tail w = ⟨{ σ with vars := x.vars }, x.rest, none⟩ := by
  induction stores generalizing tail σ w with
  | nil =>
      obtain rfl := map_eq_nil_iff.mp h
      rfl
  | cons s stores ih =>
      obtain ⟨first, rest, rfl, hfirst, hrest⟩ := map_eq_cons_iff.mp h
      have hexec : M.exec ds σ first.stmt w =
          ⟨σ.set s.1 (M.eval σ s.2 w).1, (M.eval σ s.2 w).2, none⟩ := by
        simp [hfirst, exec, Stmt.inputs, Stmt.operands, evalList, finish]
      simp only [execAll, hexec]
      exact ih hrest _ _

theorem decide_execAll_stores (ds : Duplicates) {tail}
    (h : tail.map (·.stmt) = stores.map fun s => .store s.1 s.2) (hnodup : (stores.map (·.1.place)).Nodup)
    (hun : Undisturbed stores held) {exit} (hexit : ∀ e ∈ exit.operand?, e ∈ held) (σ : Env V)
    (w : World V H) :
    let r := M.execAll ds σ tail w
    (M.decide r.env exit r.world).1 = (M.decide σ exit w).1 := by
  have hcarries := Evaluator.carriesOver_of_undisturbed (E := M.evaluator σ.copies σ.self) hnodup hun ⟨σ.vars, w⟩
  simp only [M.execAll_stores ds h]
  cases exit with
  | cond e taken other | switch e default cases =>
      have hvalue := hcarries.held e (hexit e rfl)
      simp only [Evaluator.value, evaluator] at hvalue
      simp only [decide, evaluator, hvalue]
  | _ => rfl

end Model

end JvmLift
