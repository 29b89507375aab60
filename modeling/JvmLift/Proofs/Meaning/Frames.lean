import JvmLift.Proofs.Meaning.Moves

/-!
# Frames of the simulation and data

The entries of a frame are evaluated later than the instructions that pushed them. That makes no difference for
entries that are calm, values that are duplicated, and entries that are saved before a variable changes.
-/
namespace JvmLift

open List

variable {V H : Type} {M : Model V H} {σ σ' : Env V}

/-! ## Stacks that give data -/

structure Model.Stands (M : Model V H) (e : Expr) (d : Datum V) : Prop where
  shows : e.Shows d
  pushable : M.Pushable e

/-- The entries of a stack, evaluated from the bottom up, give what an operand stack holds. -/
inductive Model.Gives (M : Model V H) (σ : Env V) :
    List Expr → World V H → OperandStack V → World V H → Prop
  | nil {w} : Gives M σ [] w [] w
  | cons {e es wide d s w w1 w'} (hes : Gives M σ es w s w1) (he : M.eval σ e w1 = (d, w'))
      (hd : M.Stands e d) : Gives M σ (e :: es) w ((wide, d) :: s) w'

namespace Model

variable {e : Expr} {es xs ys : List Expr} {s s1 s2 : OperandStack V} {w w1 w' : World V H}

theorem Gives.length_eq (h : M.Gives σ es w s w') : s.length = es.length := by
  induction h with
  | nil => rfl
  | cons _ _ _ ih => exact congrArg (· + 1) ih

theorem Gives.append (hy : M.Gives σ ys w s2 w1) (hx : M.Gives σ xs w1 s1 w') :
    M.Gives σ (xs ++ ys) w (s1 ++ s2) w' := by
  induction hx with
  | nil => exact hy
  | cons _ he hd ih => exact .cons (ih hy) he hd

theorem Gives.split (h : M.Gives σ (xs ++ ys) w s w') :
    ∃ s1 s2 w1, s = s1 ++ s2 ∧ M.Gives σ ys w s2 w1 ∧ M.Gives σ xs w1 s1 w' := by
  induction xs generalizing s w' with
  | nil => exact ⟨[], s, w', rfl, h, .nil⟩
  | cons x xs ih =>
      cases h with
      | cons hes he hd =>
          obtain ⟨s1, s2, w1, rfl, hy, hx⟩ := ih hes
          exact ⟨_ :: s1, s2, w1, rfl, hy, .cons hx he hd⟩

section

variable (h : M.Gives σ es w s w')

include h

theorem Gives.evalList : M.evalList σ es.reverse w = ((s.map (·.2)).reverse, w') := by
  induction h with
  | nil => rfl
  | cons _ he _ ih => simp [evalList_append, Model.evalList, ih, he]

theorem Gives.shows : List.Forall₂ Expr.Shows es (s.map (·.2)) := by
  induction h with
  | nil => exact .nil
  | cons _ _ hd ih => exact .cons hd.shows ih

theorem Gives.pushable : ∀ e ∈ es, M.Pushable e := by
  induction h with
  | nil => exact nofun
  | cons _ _ hd ih =>
      simp only [mem_cons, forall_eq_or_imp]
      exact ⟨hd.pushable, ih⟩

theorem Gives.calm (hcalm : es.all Expr.isCalm = true) : w' = w ∧ ∀ w, M.Gives σ es w s w := by
  induction h with
  | nil => exact ⟨rfl, fun _ => .nil⟩
  | cons _ he hstands ih =>
      simp only [all_cons, Bool.and_eq_true] at hcalm
      obtain ⟨rfl, hes⟩ := ih hcalm.2
      obtain ⟨d, hd⟩ := eval_calm hcalm.1
      rw [hd] at he
      cases he
      exact ⟨rfl, fun w => .cons (hes w) (hd w) hstands⟩

end

theorem Gives.swap (h : M.Gives σ (xs ++ ys) w s w') (hcalm : xs.all Expr.isCalm = true ∨ ys.all Expr.isCalm = true) :
    ∃ s1 s2 w1, s = s1 ++ s2 ∧ M.Gives σ xs w s1 w1 ∧ M.Gives σ ys w1 s2 w' := by
  obtain ⟨s1, s2, w1, rfl, hy, hx⟩ := h.split
  rcases hcalm with hcalm | hcalm
  · obtain ⟨rfl, hany⟩ := hx.calm hcalm
    exact ⟨s1, s2, w, rfl, hany w, hy⟩
  · obtain ⟨rfl, hany⟩ := hy.calm hcalm
    exact ⟨s1, s2, w', rfl, hx, hany w'⟩

theorem Gives.congr (h : M.Gives σ es w s w') (hself : σ'.self = σ.self)
    (hleaf : ∀ e ∈ es, ∀ x ∈ e.nodes, SameLeaf σ σ' x) : M.Gives σ' es w s w' := by
  induction h with
  | nil => exact .nil
  | cons _ he hd ih =>
      simp only [mem_cons, forall_eq_or_imp] at hleaf
      exact .cons (ih hleaf.2) ((eval_congr hself hleaf.1 _).trans he) hd

end Model

/-! ## Environments that grow -/

/-- The environments agree on slots, and on temporaries and duplicates up to some number. -/
structure Env.Grows (temps dups : Nat) (σ σ' : Env V) : Prop where
  self : σ'.self = σ.self
  slots : σ'.slots = σ.slots
  temps : ∀ n : UInt16, n.toNat < temps → σ'.vars (.temp, n) = σ.vars (.temp, n)
  copies : ∀ id < dups, σ'.copies id = σ.copies id

variable {e : Expr} {w w' : World V H} {s : OperandStack V}

namespace Env

variable {temps dups temps' dups' : Nat} {τ : Env V}

theorem Grows.refl (temps dups : Nat) (σ : Env V) : σ.Grows temps dups σ :=
  ⟨rfl, rfl, fun _ _ => rfl, fun _ _ => rfl⟩

theorem Grows.trans (h : σ.Grows temps dups σ') (h' : σ'.Grows temps' dups' τ) (ht : temps ≤ temps')
    (hd : dups ≤ dups') : σ.Grows temps dups τ where
  self := h'.self.trans h.self
  slots := h'.slots.trans h.slots
  temps n hn := (h'.temps n (Nat.lt_of_lt_of_le hn ht)).trans (h.temps n hn)
  copies id hid := (h'.copies id (Nat.lt_of_lt_of_le hid hd)).trans (h.copies id hid)

theorem grows_copy (σ : Env V) (temps dups : Nat) (d : Datum V) : σ.Grows temps dups (σ.copy dups d) where
  self := rfl
  slots := rfl
  temps _ _ := rfl
  copies _ hid := if_neg (Nat.ne_of_lt hid)

theorem grows_set (σ : Env V) (n : UInt16) (dups : Nat) (ty : ErasedType) (d : Datum V) :
    σ.Grows n.toNat dups (σ.set (.ofTemp n ty) d) where
  self := rfl
  slots := by
    funext k
    simp [Env.slots, Env.set, LocalVar.place, LocalVar.ofTemp]
  temps k hk := by
    refine if_neg fun heq => ?_
    cases heq
    exact Nat.lt_irrefl _ hk
  copies _ _ := rfl

variable (h : σ.Grows temps dups σ')

include h

theorem Grows.sameLeaf (he : e.LeafWithin temps dups) : Model.SameLeaf σ σ' e := by
  cases e with
  | localVar v =>
      rcases he with ⟨ho, -⟩ | ⟨ho, hlt⟩
      · have hp : v.place = (.slot, v.index) := by rw [LocalVar.place, ho]
        show σ'.vars v.place = σ.vars v.place
        rw [hp]
        exact congrFun h.slots v.index
      · have hp : v.place = (.temp, v.index) := by rw [LocalVar.place, ho]
        show σ'.vars v.place = σ.vars v.place
        rw [hp]
        exact h.temps v.index hlt
  | dupLoad id => exact h.copies id he
  | _ => trivial

theorem Grows.eval (he : e.Within temps dups) (w : World V H) : M.eval σ' e w = M.eval σ e w :=
  Model.eval_congr h.self (fun x hx => h.sameLeaf (he x hx)) w

theorem Grows.gives {es} (hes : ∀ e ∈ es, e.Within temps dups) (hg : M.Gives σ es w s w') : M.Gives σ' es w s w' :=
  hg.congr h.self fun e he x hx => h.sameLeaf (hes e he x hx)

end Env

/-! ## What frames hold -/

namespace Frame

/-- The expression reads slots without names, and temporaries and duplicates that exist. -/
abbrev Knows (f : Frame) (e : Expr) : Prop := e.Within f.nextTemp.toNat f.duplicates.values.length

/-- Entries, values and statements read what exists, duplicates are computed in order, and there is a
statement for every temporary and every duplicate. -/
structure Tidy (f : Frame) : Prop where
  stack : ∀ e ∈ f.stack, f.Knows e
  values : ∀ id v, f.duplicates.get? id = some v → v.Within f.nextTemp.toNat id
  copies : f.out.filterMap (·.stmt.copyId?) = range f.duplicates.values.length
  reads : ∀ s ∈ f.out, ∀ e ∈ s.stmt.operands, f.Knows e
  writes : ∀ s ∈ f.out, ∀ v ∈ s.stmt.written?, f.Knows (.localVar v)
  count : f.nextTemp.toNat + f.duplicates.values.length ≤ f.out.length

variable {f : Frame} {ctx : MethodContext} {i : Instruction}

theorem Tidy.withStack (h : f.Tidy) {stack} (hs : ∀ e ∈ stack, f.Knows e) : Tidy { f with stack } :=
  { h with stack := hs }

theorem Tidy.grow {f' : Frame} {l} (h : f.Tidy) (hout : f'.out = f.out ++ [l]) (hs : f'.stack = f.stack)
    (ht : f.nextTemp.toNat ≤ f'.nextTemp.toNat) (hd : f.duplicates.Le f'.duplicates)
    (hvalues : ∀ id v, f'.duplicates.get? id = some v → v.Within f'.nextTemp.toNat id)
    (hcopies : range f.duplicates.values.length ++ l.stmt.copyId?.toList = range f'.duplicates.values.length)
    (hreads : ∀ e ∈ l.stmt.operands, f'.Knows e) (hwrites : ∀ v ∈ l.stmt.written?, f'.Knows (.localVar v))
    (hcount : f'.nextTemp.toNat + f'.duplicates.values.length ≤ f.nextTemp.toNat + f.duplicates.values.length + 1) :
    f'.Tidy := by
  have hknows : ∀ {e : Expr}, f.Knows e → f'.Knows e := fun he => he.mono ht hd.length_le
  have hmem : ∀ {s}, s ∈ f'.out → s ∈ f.out ∨ s = l := fun hs => by simpa [hout] using hs
  refine ⟨fun e he => hknows (h.stack e (hs ▸ he)), hvalues, ?_, fun s hs => ?_, fun s hs => ?_, ?_⟩
  · rw [hout, filterMap_append, h.copies, ← hcopies]
    cases hc : l.stmt.copyId? <;> simp [hc]
  · rcases hmem hs with hs | rfl
    · exact fun e he => hknows (h.reads s hs e he)
    · exact hreads
  · rcases hmem hs with hs | rfl
    · exact fun v hv => hknows (h.writes s hs v hv)
    · exact hwrites
  · have := h.count
    rw [hout, length_append, length_singleton]
    omega

theorem Tidy.emitted (h : f.Tidy) {s} (hreads : ∀ e ∈ s.operands, f.Knows e)
    (hwrites : ∀ v ∈ s.written?, f.Knows (.localVar v)) (hdup : s.copyId? = none) : (f.emitted ctx s i).Tidy :=
  h.grow rfl rfl (Nat.le_refl _) (.refl _) h.values (by simp [hdup, Frame.emitted]) hreads hwrites (Nat.le_succ _)

def quietSince (f f' : Frame) : Bool := (f'.out.drop f.out.length).all (·.stmt.isCalm f'.duplicates)

theorem quietSince_append {f f' : Frame} {new} (h : f'.out = f.out ++ new) :
    f.quietSince f' = new.all (·.stmt.isCalm f'.duplicates) := by
  rw [quietSince, h, drop_left]

def copying (f : Frame) (ctx : MethodContext) (v : Expr) (i : Instruction) : Frame :=
  { f with
    duplicates := ⟨f.duplicates.values ++ [v]⟩
    out := f.out ++ [⟨.dupStore f.duplicates.values.length, f.start, i.next, ctx.lines.line? f.start⟩] }

def saving (f : Frame) (ctx : MethodContext) (e : Expr) : Frame :=
  { f with
    nextTemp := f.nextTemp + 1
    out := f.out ++ [⟨.store (.ofTemp f.nextTemp e.ty) e, f.start, f.start, ctx.lines.line? f.start⟩] }

theorem le_copying (f : Frame) (ctx : MethodContext) (v : Expr) (i : Instruction) :
    f.duplicates.Le (f.copying ctx v i).duplicates := prefix_append ..

theorem Tidy.copying (h : f.Tidy) {v} (hv : f.Knows v) : (f.copying ctx v i).Tidy := by
  refine h.grow rfl rfl (Nat.le_refl _) (le_copying ..) (fun id u hu => ?_) ?_ (by simp [Stmt.operands])
    (by simp [Stmt.written?]) (by simp [Frame.copying]; omega)
  · simp only [Frame.copying, Duplicates.get?, getElem?_append] at hu
    split at hu
    · exact h.values id u hu
    · have hid : id = f.duplicates.values.length := by
        have := (List.getElem?_eq_some_iff.mp hu).1
        simp only [length_singleton] at this
        omega
      subst hid
      simp only [Nat.sub_self, getElem?_cons_zero, Option.some.injEq] at hu
      exact hu ▸ hv
  · simp [Frame.copying, range_succ, Stmt.copyId?]

theorem toNat_saving (ctx : MethodContext) (h : f.Tidy) (hcount : f.out.length < 65535) (e : Expr) :
    (f.saving ctx e).nextTemp.toNat = f.nextTemp.toNat + 1 := by
  have := h.count
  show (f.nextTemp + 1).toNat = _
  simp
  omega

theorem Tidy.saving (h : f.Tidy) (he : f.Knows e) (hcount : f.out.length < 65535) : (f.saving ctx e).Tidy := by
  have hnext := toNat_saving ctx h hcount e
  have hle : f.nextTemp.toNat ≤ (f.saving ctx e).nextTemp.toNat := by omega
  refine h.grow rfl rfl hle (.refl _) (fun id v hv => (h.values id v hv).mono hle (Nat.le_refl _))
    (by simp [Frame.saving, Stmt.copyId?]) (fun x hx => ?_) (fun u hu => ?_) (by simp [Frame.saving]; omega)
  · rw [mem_singleton.mp hx]
    exact he.mono hle (Nat.le_refl _)
  · cases hu
    intro x hx
    rw [mem_singleton.mp hx]
    exact .inr ⟨rfl, by show f.nextTemp.toNat < _; omega⟩

end Frame

/-! ## Values that are duplicated -/

/-- May both copies be the value itself? -/
def Expr.isShared : Expr → Bool
  | .dupLoad _ | .uninitNew .. => true
  | e => e.isPure

variable {d : Datum V}

theorem Expr.Shows.eq_value (h : e.Shows d) (he : e.isUninit = false) : ∃ v, d = .value v := by
  cases d with
  | value v => exact ⟨v, rfl⟩
  | fresh name alloc =>
      rw [h name alloc rfl] at he
      cases he

theorem Expr.isCalm_of_isShared (h : e.isShared = true) : e.isCalm = true := by
  cases e <;> first | rfl | cases h

namespace Sim

variable {ctx : MethodContext} {i : Instruction} {f f' : Frame} {ds : Duplicates}

inductive Copied (ctx : MethodContext) (i : Instruction) (f : Frame) : List Expr → List Expr → Frame → Prop
  | nil : Copied ctx i f [] [] f
  | shared {v vs cs f'} (h : Copied ctx i f vs cs f') (hv : v.isShared = true) :
      Copied ctx i f (v :: vs) (v :: cs) f'
  | stored {v vs cs f'} (h : Copied ctx i f vs cs f') (hv : v.isShared = false) :
      Copied ctx i f (v :: vs) (.dupLoad f'.duplicates.values.length :: cs) (f'.copying ctx v i)

theorem copied_of_duplicateAll {vs cs} (h : duplicateAll ctx i vs f = .ok (cs, f')) : Copied ctx i f vs cs f' := by
  induction vs generalizing cs f' with
  | nil =>
      cases h
      exact .nil
  | cons v vs ih =>
      rw [duplicateAll_cons] at h
      obtain ⟨copies, f1, hcopies, h⟩ := of_bind_ok h
      obtain ⟨c, f2, hd, h⟩ := of_bind_ok h
      cases h
      change (if v.isShared = true then _ else _ : Sim Expr) f1 = _ at hd
      cases hv : v.isShared with
      | true =>
          rw [hv] at hd
          cases hd
          exact .shared (ih hcopies) hv
      | false =>
          rw [hv] at hd
          cases hd
          exact .stored (ih hcopies) hv

namespace Copied

variable {vs cs : List Expr}

variable (h : Copied ctx i f vs cs f')

include h

theorem stack_eq : f'.stack = f.stack := by
  induction h with
  | nil => rfl
  | shared _ _ ih | stored _ _ ih => exact ih

theorem withStack (stack : List Expr) : Copied ctx i { f with stack } vs cs { f' with stack } := by
  induction h with
  | nil => exact .nil
  | shared _ hv ih => exact .shared ih hv
  | stored _ hv ih => exact .stored ih hv

theorem nextTemp_eq : f'.nextTemp = f.nextTemp := by
  induction h with
  | nil => rfl
  | shared _ _ ih | stored _ _ ih => exact ih

theorem le : f.duplicates.Le f'.duplicates := by
  induction h with
  | nil => exact .refl _
  | shared _ _ ih => exact ih
  | stored _ _ ih => exact ih.trans (Frame.le_copying ..)

theorem knows (he : f.Knows e) : f'.Knows e :=
  he.mono (Nat.le_of_eq (congrArg UInt16.toNat h.nextTemp_eq.symm)) h.le.length_le

theorem tidy (ht : f.Tidy) (hvs : ∀ v ∈ vs, f.Knows v) : f'.Tidy ∧ ∀ c ∈ cs, f'.Knows c := by
  induction h with
  | nil => exact ⟨ht, nofun⟩
  | shared h _ ih =>
      simp only [mem_cons, forall_eq_or_imp] at hvs ⊢
      obtain ⟨ht', hcs⟩ := ih hvs.2
      exact ⟨ht', h.knows hvs.1, hcs⟩
  | @stored v vs cs f' h _ ih =>
      simp only [mem_cons, forall_eq_or_imp] at hvs ⊢
      obtain ⟨ht', hcs⟩ := ih hvs.2
      refine ⟨ht'.copying (h.knows hvs.1), ?_, fun c hc => ?_⟩
      · intro x hx
        rw [mem_singleton.mp hx]
        show f'.duplicates.values.length < (f'.duplicates.values ++ [v]).length
        simp
      · exact (hcs c hc).mono (Nat.le_refl _) (by simp [Frame.copying])

theorem exec (ht : f.Tidy) (hvs : ∀ v ∈ vs, f.Knows v) (hds : f'.duplicates.Le ds)
    (hg : M.Gives σ vs w s w') : ∃ new σ', f'.out = f.out ++ new ∧ M.execAll ds σ new w = ⟨σ', w', none⟩ ∧
      σ.Grows f.nextTemp.toNat f.duplicates.values.length σ' ∧ (∀ w, M.Gives σ' cs w s w) ∧
      (∀ ds', f'.duplicates.Le ds' → new.all (·.stmt.isCalm ds') = true → vs.all Expr.isCalm = true) := by
  induction h generalizing s w' with
  | nil =>
      cases hg
      exact ⟨[], σ, by simp, rfl, .refl _ _ _, fun _ => .nil, fun _ _ _ => rfl⟩
  | @shared v vs cs f' h hv ih =>
      simp only [mem_cons, forall_eq_or_imp] at hvs
      cases hg with
      | cons hes he hstands =>
          obtain ⟨new, σ', hout, hexec, hgrows, hcs, hquiet⟩ := ih hvs.2 hds hes
          obtain ⟨d, hd⟩ := Model.eval_calm (Expr.isCalm_of_isShared hv)
          rw [hd] at he
          cases he
          refine ⟨new, σ', hout, hexec, hgrows, fun w => .cons (hcs w) ?_ hstands, fun ds' hds' hnew => ?_⟩
          · rw [hgrows.eval hvs.1, hd]
          · simp [Expr.isCalm_of_isShared hv, hquiet ds' hds' hnew]
  | @stored v vs cs f' h hv ih =>
      simp only [mem_cons, forall_eq_or_imp] at hvs
      cases hg with
      | @cons _ _ wide d s w w1 w' hes he hstands =>
          obtain ⟨new, σ1, hout, hexec, hgrows, hcs, hquiet⟩ := ih hvs.2 ((Frame.le_copying ..).trans hds) hes
          have huninit : v.isUninit = false := by
            cases v with
            | uninitNew name alloc => cases hv
            | _ => rfl
          obtain ⟨x, rfl⟩ := hstands.shows.eq_value huninit
          have hget : ∀ {ds'}, (f'.copying ctx v i).duplicates.Le ds' →
              ds'.get? f'.duplicates.values.length = some v :=
            fun hle => hle.get? (by simp [Frame.copying, Duplicates.get?])
          have hstore : M.exec ds σ1 (.dupStore f'.duplicates.values.length) w1 =
              ⟨σ1.copy f'.duplicates.values.length (.value x), w', none⟩ := by
            simp [Model.exec, Stmt.inputs, hget hds, Model.evalList, hgrows.eval hvs.1, he, Model.finish]
          have hcopy := Env.grows_copy σ1 f'.nextTemp.toNat f'.duplicates.values.length (.value x)
          have htemps : f.nextTemp.toNat ≤ f'.nextTemp.toNat := Nat.le_of_eq (by rw [h.nextTemp_eq])
          refine ⟨_, σ1.copy f'.duplicates.values.length (.value x),
            (congrArg (· ++ _) hout).trans (append_assoc ..), ?_, hgrows.trans hcopy htemps h.le.length_le,
            fun w => .cons (hcopy.gives (h.tidy ht hvs.2).2 (hcs w)) ?_ ⟨Model.shows_value, trivial⟩, fun ds' hds' => ?_⟩
          · simp [Model.execAll_append, hexec, Model.execAll, hstore]
          · simp [Model.eval, Env.copy]
          · simp only [all_append, all_cons, Bool.and_eq_true, Stmt.isCalm, hget hds']
            exact fun hnew => ⟨hnew.2.1, hquiet ds' ((Frame.le_copying ..).trans hds') hnew.1⟩

end Copied

/-! ## Entries that are saved -/

inductive Spilled (ctx : MethodContext) (v : LocalVar) (f : Frame) : List Expr → List Expr → Frame → Prop
  | nil : Spilled ctx v f [] [] f
  | keep {e es es' f'} (h : Spilled ctx v f es es' f') (hr : f'.readsVar v e = false) :
      Spilled ctx v f (e :: es) (e :: es') f'
  | save {e es es' f'} (h : Spilled ctx v f es es' f') (hr : f'.readsVar v e = true) :
      Spilled ctx v f (e :: es) (.localVar (.ofTemp f'.nextTemp e.ty) :: es') (f'.saving ctx e)

variable {v : LocalVar} {es es' : List Expr}

theorem spilled_mapM (h : es.reverse.mapM (spillEntry ctx v) f = .ok (es', f')) :
    Spilled ctx v f es es'.reverse f' := by
  induction es generalizing es' f' with
  | nil =>
      cases h
      exact .nil
  | cons e es ih =>
      rw [reverse_cons, mapM_append] at h
      obtain ⟨xs, f1, hxs, h⟩ := of_bind_ok h
      obtain ⟨ys, f2, hys, h⟩ := of_bind_ok h
      cases h
      rw [mapM_cons] at hys
      obtain ⟨y, f3, hy, hys⟩ := of_bind_ok hys
      obtain ⟨_, f4, hnil, hys⟩ := of_bind_ok hys
      cases hnil
      cases hys
      simp only [reverse_append]
      obtain ⟨_, _, hget, hy⟩ := of_bind_ok hy
      cases hget
      cases hr : f1.readsVar v e with
      | true =>
          rw [hr] at hy
          cases hy
          exact .save (ih hxs) hr
      | false =>
          rw [hr] at hy
          cases hy
          exact .keep (ih hxs) hr

theorem spillReaders_inv (h : spillReaders ctx v f = .ok ((), f')) :
    ∃ es f1, Spilled ctx v f f.stack es f1 ∧ f' = { f1 with stack := es } := by
  obtain ⟨_, _, hget, h⟩ := of_bind_ok h
  cases hget
  obtain ⟨es, f1, hmap, h⟩ := of_bind_ok h
  cases h
  exact ⟨es.reverse, f1, spilled_mapM hmap, rfl⟩

namespace Spilled

theorem duplicates_eq (h : Spilled ctx v f es es' f') : f'.duplicates = f.duplicates := by
  induction h with
  | nil => rfl
  | keep _ _ ih | save _ _ ih => exact ih

theorem tidy (h : Spilled ctx v f es es' f') (ht : f.Tidy) (hes : ∀ e ∈ es, f.Knows e)
    (hcount : f'.out.length < 65536) : f'.Tidy ∧ f.nextTemp.toNat ≤ f'.nextTemp.toNat ∧ ∀ e ∈ es', f'.Knows e := by
  induction h with
  | nil => exact ⟨ht, Nat.le_refl _, nofun⟩
  | @keep e es es' f' h _ ih =>
      simp only [mem_cons, forall_eq_or_imp] at hes ⊢
      obtain ⟨ht', hle, hes'⟩ := ih hes.2 hcount
      exact ⟨ht', hle, hes.1.mono hle (Nat.le_of_eq (by rw [h.duplicates_eq])), hes'⟩
  | @save e es es' f' h _ ih =>
      simp only [mem_cons, forall_eq_or_imp] at hes ⊢
      have hlt : f'.out.length < 65535 := by
        simp only [Frame.saving, length_append, length_singleton] at hcount
        omega
      obtain ⟨ht', hle, hes'⟩ := ih hes.2 (by omega)
      have hnext := Frame.toNat_saving ctx ht' hlt e
      have he : f'.Knows e := hes.1.mono hle (Nat.le_of_eq (by rw [h.duplicates_eq]))
      refine ⟨ht'.saving he hlt, by omega, ?_, fun x hx => (hes' x hx).mono (by omega) (Nat.le_refl _)⟩
      intro x hx
      rw [mem_singleton.mp hx]
      exact .inr ⟨rfl, by show f'.nextTemp.toNat < _; omega⟩

theorem place_ne (h : Spilled ctx v f es es' f') (hes : ∀ e ∈ es, f.Knows e) {slot} (hv : v.IsSlot slot)
    (he : e ∈ es') {u} (hu : .localVar u ∈ e.nodes) : u.place ≠ v.place := by
  induction h with
  | nil => cases he
  | @keep e0 es es' f' h hr ih =>
      simp only [mem_cons, forall_eq_or_imp] at hes
      rcases mem_cons.mp he with rfl | he
      · intro hplace
        have hname : u.name = none := by
          rcases hes.1 _ hu with ⟨-, hname⟩ | ⟨horigin, -⟩
          · exact hname
          · rw [hv.1, LocalVar.place, horigin] at hplace
            cases hplace
        have hsame : u.same v = true := by
          simp only [LocalVar.place, Prod.mk.injEq] at hplace
          simp [LocalVar.same, hplace.1, hplace.2, hname]
        have hreads : e.reads v = true := by
          simp only [Expr.reads, Expr.countReads, decide_eq_true_eq, countP_pos_iff]
          exact ⟨.localVar u, hu, hsame⟩
        cases e with
        | dupLoad id => simp [Expr.nodes] at hu
        | _ => cases hreads.symm.trans hr
      · exact ih hes.2 he
  | save h hr ih =>
      simp only [mem_cons, forall_eq_or_imp] at hes
      rcases mem_cons.mp he with rfl | he
      · cases mem_singleton.mp hu
        rw [hv.1]
        intro hplace
        cases hplace
      · exact ih hes.2 he

/-- An entry that reads a variable is no object under construction, so a temporary may stand for it. -/
theorem stands_save (hr : f.readsVar v e = true) (h : M.Stands e d) (u : LocalVar) : M.Stands (.localVar u) d := by
  have huninit : e.isUninit = false := by
    cases e with
    | uninitNew name alloc => cases hr
    | _ => rfl
  obtain ⟨x, rfl⟩ := h.shows.eq_value huninit
  exact ⟨Model.shows_value, trivial⟩

theorem exec_save (ds : Duplicates) (he : M.eval σ e w = (d, w')) (n : UInt16) :
    M.exec ds σ (.store (.ofTemp n e.ty) e) w = ⟨σ.set (.ofTemp n e.ty) d, w', none⟩ := by
  simp [Model.exec, Stmt.inputs, Stmt.operands, Model.evalList, he, Model.finish]

theorem exec_quiet (ds : Duplicates) (h : Spilled ctx v f es es' f') (ht : f.Tidy) (hes : ∀ e ∈ es, f.Knows e)
    (hcount : f'.out.length < 65536) (σ : Env V) (ds' : Duplicates) :
    ∃ new, f'.out = f.out ++ new ∧ (new.all (·.stmt.isCalm ds') = true →
      ∃ σ', (∀ w, M.execAll ds σ new w = ⟨σ', w, none⟩) ∧ σ.Grows f.nextTemp.toNat f.duplicates.values.length σ' ∧
        ∀ w s w', M.Gives σ es w s w' → M.Gives σ' es' w s w') := by
  induction h with
  | nil => exact ⟨[], by simp, fun _ => ⟨σ, fun _ => rfl, .refl _ _ _, fun _ _ _ h => h⟩⟩
  | @keep e es es' f' h _ ih =>
      simp only [mem_cons, forall_eq_or_imp] at hes
      obtain ⟨new, hout, hnew⟩ := ih hes.2 hcount
      refine ⟨new, hout, fun hquiet => ?_⟩
      obtain ⟨σ', hexec, hgrows, hgives⟩ := hnew hquiet
      refine ⟨σ', hexec, hgrows, fun w s w' hg => ?_⟩
      cases hg with
      | cons hrest he hd => exact .cons (hgives _ _ _ hrest) ((hgrows.eval hes.1 _).trans he) hd
  | @save e es es' f' h hr ih =>
      simp only [mem_cons, forall_eq_or_imp] at hes
      simp only [Frame.saving, length_append] at hcount
      obtain ⟨new, hout, hnew⟩ := ih hes.2 (by omega)
      obtain ⟨-, hle, hes'⟩ := h.tidy ht hes.2 (by omega)
      refine ⟨_, (congrArg (· ++ _) hout).trans (append_assoc ..), fun hquiet => ?_⟩
      simp only [all_append, all_cons, all_nil, Bool.and_true, Bool.and_eq_true] at hquiet
      obtain ⟨σ1, hexec, hgrows, hgives⟩ := hnew hquiet.1
      obtain ⟨d, hd⟩ := Model.eval_calm (M := M) (σ := σ1) hquiet.2
      have hset := σ1.grows_set f'.nextTemp f'.duplicates.values.length e.ty d
      have hdups : f.duplicates.values.length ≤ f'.duplicates.values.length :=
        Nat.le_of_eq (by rw [h.duplicates_eq])
      refine ⟨σ1.set (.ofTemp f'.nextTemp e.ty) d, fun w => ?_, hgrows.trans hset hle hdups, fun w s w' hg => ?_⟩
      · simp [Model.execAll_append, hexec, Model.execAll, exec_save ds (hd w)]
      · cases hg with
        | cons hrest he hstands =>
            rw [← hgrows.eval hes.1, hd] at he
            cases he
            refine .cons (hset.gives hes' (hgives _ _ _ hrest)) ?_ (stands_save hr hstands _)
            simp [Model.eval, Env.set]

theorem exec_rest (ds : Duplicates) (h : Spilled ctx v f es es' f') (ht : f.Tidy) (hes : ∀ e ∈ es, f.Knows e)
    (hcount : f'.out.length < 65536) (hcalm : es'.all Expr.isCalm = true) (hg : M.Gives σ es w s w') :
    ∃ new σ', f'.out = f.out ++ new ∧ M.execAll ds σ new w = ⟨σ', w', none⟩ ∧
      σ.Grows f.nextTemp.toNat f.duplicates.values.length σ' ∧ ∀ w, M.Gives σ' es' w s w := by
  induction h generalizing s w' with
  | nil =>
      cases hg
      exact ⟨[], σ, by simp, rfl, .refl _ _ _, fun _ => .nil⟩
  | @keep e es es' f' h _ ih =>
      simp only [mem_cons, forall_eq_or_imp] at hes
      simp only [all_cons, Bool.and_eq_true] at hcalm
      obtain ⟨d, hd⟩ := Model.eval_calm hcalm.1
      cases hg with
      | cons hrest he hstands =>
          rw [hd] at he
          cases he
          obtain ⟨new, σ', hout, hexec, hgrows, hgives⟩ := ih hes.2 hcount hcalm.2 hrest
          exact ⟨new, σ', hout, hexec, hgrows,
            fun w => .cons (hgives w) ((hgrows.eval hes.1 w).trans (hd w)) hstands⟩
  | @save e es es' f' h hr ih =>
      simp only [mem_cons, forall_eq_or_imp] at hes
      simp only [all_cons, Bool.and_eq_true] at hcalm
      simp only [Frame.saving, length_append] at hcount
      obtain ⟨-, hle, hes'⟩ := h.tidy ht hes.2 (by omega)
      cases hg with
      | @cons _ _ wide d s w w1 w' hrest he hstands =>
          obtain ⟨new, σ1, hout, hexec, hgrows, hgives⟩ := ih hes.2 (by omega) hcalm.2 hrest
          have hset := σ1.grows_set f'.nextTemp f'.duplicates.values.length e.ty d
          have hdups : f.duplicates.values.length ≤ f'.duplicates.values.length :=
            Nat.le_of_eq (by rw [h.duplicates_eq])
          have hstore := exec_save ds ((hgrows.eval hes.1 w1).trans he) f'.nextTemp
          refine ⟨_, σ1.set (.ofTemp f'.nextTemp e.ty) d, (congrArg (· ++ _) hout).trans (append_assoc ..), ?_,
            hgrows.trans hset hle hdups, fun w => .cons (hset.gives hes' (hgives w)) ?_ (stands_save hr hstands _)⟩
          · simp [Model.execAll_append, hexec, Model.execAll, hstore]
          · simp [Model.eval, Env.set]

end Spilled

theorem tidy_spillReaders (h : spillReaders ctx v f = .ok ((), f')) (ht : f.Tidy) (hcount : f'.out.length < 65536) :
    f'.Tidy ∧ ∀ e, f.Knows e → f'.Knows e := by
  obtain ⟨es, f1, hspill, rfl⟩ := spillReaders_inv h
  obtain ⟨ht', hle, hes⟩ := hspill.tidy ht ht.stack hcount
  exact ⟨ht'.withStack hes, fun e he => he.mono hle (Nat.le_of_eq (by rw [hspill.duplicates_eq]))⟩

theorem place_ne_of_spillReaders (h : spillReaders ctx v f = .ok ((), f')) (ht : f.Tidy) {slot}
    (hv : v.IsSlot slot) (he : e ∈ f'.stack) {u} (hu : .localVar u ∈ e.nodes) : u.place ≠ v.place := by
  obtain ⟨es, f1, hspill, rfl⟩ := spillReaders_inv h
  exact hspill.place_ne ht.stack hv he hu

end Sim

end JvmLift
