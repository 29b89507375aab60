import JvmLift.Proofs.Block.Backing
import JvmLift.Proofs.Meaning.Machine

/-!
# What a step of the simulation does

A step of the simulation takes operands off the stack and pushes an expression that computes the result from them, or
emits a statement that performs the operation.
-/
namespace JvmLift

open List

/-! ## Variables and duplicates that an expression reads -/

variable {e : Expr}

namespace Expr

/-- What a leaf may read: a slot without a name, and temporaries and duplicates up to some number. -/
def LeafWithin (temps dups : Nat) : Expr → Prop
  | .localVar v => (v.origin = .slot ∧ v.name = none) ∨ (v.origin = .temp ∧ v.index.toNat < temps)
  | .dupLoad id => id < dups
  | _ => True

def Within (temps dups : Nat) (e : Expr) : Prop := ∀ x ∈ e.nodes, x.LeafWithin temps dups

variable {temps dups temps' dups' : Nat}

theorem LeafWithin.mono (h : e.LeafWithin temps dups) (ht : temps ≤ temps') (hd : dups ≤ dups') :
    e.LeafWithin temps' dups' := by
  cases e with
  | localVar v => exact h.imp_right fun hv => ⟨hv.1, Nat.lt_of_lt_of_le hv.2 ht⟩
  | dupLoad id => exact Nat.lt_of_lt_of_le h hd
  | _ => trivial

theorem Within.mono (h : e.Within temps dups) (ht : temps ≤ temps') (hd : dups ≤ dups') : e.Within temps' dups' :=
  fun x hx => (h x hx).mono ht hd

theorem within_of_sources {e' : Expr} (h : e.sources = e'.sources) (hw : e'.Within temps dups) :
    e.Within temps dups := by
  intro x hx
  cases hs : x.isSource with
  | false => cases x <;> trivial
  | true =>
      have hx' : x ∈ e'.sources := h ▸ mem_filter.mpr ⟨hx, hs⟩
      exact hw x (mem_filter.mp hx').1

theorem within_of_operands (hown : e.LeafWithin temps dups) (h : ∀ x ∈ e.operands, x.Within temps dups) :
    e.Within temps dups := by
  intro x hx
  rcases mem_nodes.mp hx with rfl | ⟨y, hy, hx⟩
  · exact hown
  · exact h y hy x hx

theorem within_retype (h : e.Within temps dups) (t : ErasedType) : (e.retype t).Within temps dups :=
  within_of_sources (sources_retype e t) h

end Expr

/-! ## Expressions that compute -/

variable {V H : Type} {M : Model V H}

/-- An object that is not finished shows on the stack as such. -/
def Expr.Shows (e : Expr) (d : Datum V) : Prop := ∀ name alloc, d = .fresh name alloc → e = .uninitNew name alloc

/-- What instructions push: no condition and no return address, and a three-way comparison only if
nothing is unordered. -/
def Model.Pushable (M : Model V H) : Expr → Prop
  | .compare .. | .logical .. | .returnAddress => False
  | .cmpResult .. => ∀ l r, M.unordered l r = false
  | _ => True

/-- An expression that computes something from operands, which are evaluated first. -/
structure Model.Computes (M : Model V H) (args : List Expr)
    (run : List (Datum V) → World V H → Datum V × World V H) (e : Expr) : Prop where
  eval : ∀ σ w, M.eval σ e w = run (M.evalList σ args w).1 (M.evalList σ args w).2
  within : ∀ temps dups, (∀ a ∈ args, a.Within temps dups) → e.Within temps dups
  pushable : M.Pushable e

variable {g : Datum V → Datum V}

namespace Model

theorem computes_of {args run} (heval : ∀ σ w, M.eval σ e w = run (M.evalList σ args w).1 (M.evalList σ args w).2)
    (hoperands : ∀ x ∈ e.operands, x ∈ args) (hleaf : ∀ t d, e.LeafWithin t d) (ht : M.Pushable e) :
    M.Computes args run e where
  eval := heval
  within _ _ h := Expr.within_of_operands (hleaf ..) fun x hx => h x (hoperands x hx)
  pushable := ht

theorem computes_literal {v} (h : ∀ σ w, M.eval σ e w = (.value v, w)) (hn : e.operands = [])
    (hl : ∀ temps dups, e.LeafWithin temps dups) (ht : M.Pushable e) :
    M.Computes [] (fun _ w => (.value v, w)) e := computes_of h (by simp [hn]) hl ht

theorem computes_unary {b : Expr → Expr} (heval : ∀ σ e w, M.eval σ (b e) w = (g (M.eval σ e w).1, (M.eval σ e w).2))
    (hoperands : ∀ e, (b e).operands = [e]) (hleaf : ∀ e t d, (b e).LeafWithin t d) (ht : ∀ e, M.Pushable (b e))
    (e : Expr) : M.Computes [e] (M.unary g) (b e) :=
  computes_of (by simp [heval, evalList, unary]) (by simp [hoperands]) (hleaf e) (ht e)

theorem computes_binary {b : Expr → Expr → Expr} {g} (heval : ∀ σ l r w, M.eval σ (b l r) w =
      (g (M.eval σ l w).1 (M.eval σ r (M.eval σ l w).2).1, (M.eval σ r (M.eval σ l w).2).2))
    (hoperands : ∀ l r, (b l r).operands = [l, r])
    (hleaf : ∀ l r t d, (b l r).LeafWithin t d) (ht : ∀ l r, M.Pushable (b l r)) (l r : Expr) :
    M.Computes [l, r] (M.binary g) (b l r) :=
  computes_of (by simp [heval, evalList, binary]) (by simp [hoperands]) (hleaf l r) (ht l r)

end Model

/-! ## Moves -/

/-- A statement that performs an operation on operands, which are evaluated first. -/
structure Model.Performs (M : Model V H) (args : List Expr)
    (run : List (Datum V) → World V H → World V H) (s : Stmt) : Prop where
  exec : ∀ ds σ w, M.exec ds σ s w =
    ⟨σ, run (M.evalList σ args w).1 (M.evalList σ args w).2, none⟩
  within : ∀ temps dups, (∀ a ∈ args, a.Within temps dups) → ∀ e ∈ s.operands, e.Within temps dups
  written : s.written? = none
  acts : ∀ ds, s.isCalm ds = false

/-- An exit that leads where operands say, which are evaluated first. -/
structure Model.Decides (M : Model V H) (args : List Expr) (left : List (Datum V) → Departure V)
    (x : Exit) : Prop where
  decide : ∀ σ w, M.decide σ x w =
    (some (left (M.evalList σ args w).1), (M.evalList σ args w).2)
  within : ∀ temps dups, (∀ a ∈ args, a.Within temps dups) → ∀ e ∈ x.operand?, e.Within temps dups

structure Model.Leaves (M : Model V H) (args : List Expr) (left : List (Datum V) → Departure V)
    (s : Stmt) : Prop where
  exec : ∀ ds σ w, M.exec ds σ s w =
    ⟨σ, (M.evalList σ args w).2, some (left (M.evalList σ args w).1)⟩
  within : ∀ temps dups, (∀ a ∈ args, a.Within temps dups) → ∀ e ∈ s.operands, e.Within temps dups
  written : s.written? = none
  dup : ∀ id, s ≠ .dupStore id

def LocalVar.IsSlot (v : LocalVar) (slot : UInt16) : Prop := v.place = (.slot, slot) ∧ v.name = none

def Operation.isCast {τ : Type} : Operation τ → Bool
  | .checkCast _ | .convert .. | .narrow _ => true
  | _ => false

def Operation.isThreeWay {τ : Type} : Operation τ → Bool
  | .longCompare | .floatCompare _ | .doubleCompare _ => true
  | _ => false

def Operation.isShuffle {τ : Type} : Operation τ → Bool
  | .nop | .pop | .pop2 | .dup | .dupX1 | .dupX2 | .dup2 | .dup2X1 | .dup2X2 | .swap => true
  | _ => false

def Expr.isUninit : Expr → Bool
  | .uninitNew .. => true
  | _ => false

def Frame.emitted (f : Frame) (ctx : MethodContext) (s : Stmt) (i : Instruction) : Frame :=
  { f with out := f.out ++ [⟨s, f.start, i.next, ctx.lines.line? f.start⟩], start := i.next }

/-- The object that was allocated at an offset stands once on a stack at most, and what is above it is
calm. -/
def Sim.standsOnce (alloc : Nat) : List Expr → Bool
  | [] => true
  | e :: rest => if isAlloc alloc e then !rest.any (isAlloc alloc) else e.isCalm && standsOnce alloc rest

/-- What a step of the simulation does for an instruction that behaves in some way. -/
inductive Moves (M : Model V H) (ctx : MethodContext) (i : Instruction) (f : Frame) :
    Behaviour V H → Frame → Option Exit → Prop
  | compute {l rest e wide run} (hs : f.stack = l.reverse ++ rest) (he : M.Computes l run e)
      (hshows : (i.op.isCast = true → f.stack.head?.any Expr.isUninit = false) →
        ∀ ds w, List.Forall₂ Expr.Shows l ds → e.Shows (run ds w).1) :
      Moves M ctx i f (.compute l.length wide run) { f with stack := e :: rest } none
  | perform {l rest s run} (hs : f.stack = l.reverse ++ rest) (hp : M.Performs l run s) :
      Moves M ctx i f (.perform l.length run) (Frame.emitted { f with stack := rest } ctx s i) none
  | decide {l rest x left} (hs : f.stack = l.reverse ++ rest) (hd : M.Decides l left x) :
      Moves M ctx i f (.depart l.length left) { f with stack := rest } (some x)
  | leave {l rest s x left} (hs : f.stack = l.reverse ++ rest) (hl : M.Leaves l left s) (hx : x.operand? = none) :
      Moves M ctx i f (.depart l.length left) (Frame.emitted { f with stack := rest } ctx s i) (some x)
  | load {wide slot v} (hv : v.IsSlot slot) :
      Moves M ctx i f (.load wide slot) { f with stack := .localVar v :: f.stack } none
  | loadSelf {wide} (hstatic : ctx.isStatic = false) :
      Moves M ctx i f (.load wide 0) { f with stack := .thisRef :: f.stack } none
  | store {kind slot v value rest f1} (hop : i.op = .store kind slot) (hv : v.IsSlot slot)
      (hs : f.stack = value :: rest)
      (hspill : Sim.spillReaders ctx v { f with stack := rest } = .ok ((), f1)) :
      Moves M ctx i f (.store slot) (f1.emitted ctx (.store v (value.retype v.ty)) i) none
  | increment {slot v amount f1} (hop : i.op = .increment slot amount) (hv : v.IsSlot slot)
      (hspill : Sim.spillReaders ctx v f = .ok ((), f1)) :
      Moves M ctx i f (.increment slot amount.toInt32) (f1.emitted ctx (.increment v amount.toInt32) i) none
  | shuffle {form f'} (hop : i.op.isShuffle = true) (h : Sim.step ctx i f = .ok (none, f')) :
      Moves M ctx i f (.shuffle form) f' none
  | construct {args rest name alloc kind owner descriptor e}
      (hs : f.stack = args.reverse ++ .uninitNew name alloc :: rest)
      (he : M.Computes args (M.act (.construct name descriptor)) e)
      (hany : rest.any (Sim.isAlloc alloc) = true) (honce : Sim.standsOnce alloc rest = true) :
      Moves M ctx i f (.initObject args.length kind owner descriptor)
        { f with stack := rest.map fun x => if Sim.isAlloc alloc x then e else x } none
  | constructOnly {args rest name alloc kind owner descriptor s}
      (hs : f.stack = args.reverse ++ .uninitNew name alloc :: rest)
      (hp : M.Performs args (fun args w => (M.act (.construct name descriptor) args w).2) s)
      (hany : rest.any (Sim.isAlloc alloc) = false) :
      Moves M ctx i f (.initObject args.length kind owner descriptor)
        (Frame.emitted { f with stack := rest } ctx s i) none
  | initObject {args rest receiver kind owner descriptor s}
      (hs : f.stack = args.reverse ++ receiver :: rest) (hr : receiver.isUninit = false)
      (hp : M.Performs (receiver :: args) (fun args w => (M.act (.call kind owner "<init>" descriptor) args w).2)
        s) :
      Moves M ctx i f (.initObject args.length kind owner descriptor)
        (Frame.emitted { f with stack := rest } ctx s i) none

namespace Model

variable {ctx : MethodContext} {i : Instruction} {f f' : Frame} {exit : Option Exit}

variable {e : Expr}

theorem shows_value {v : V} : e.Shows (.value v) := nofun

theorem moves_push {d} (wide : Bool) (he : M.Computes [] (fun _ w => (d, w)) e) (hshows : e.Shows d) :
    Moves M ctx i f (.compute 0 wide fun _ w => (d, w)) { f with stack := e :: f.stack } none :=
  .compute rfl he fun _ _ _ _ => hshows

theorem shows_unary {arg} {stack : List Expr} (hs : f.stack = arg :: stack)
    (hshows : i.op.isCast = true ∨ ∀ d, ∃ v, g d = .value v) (hcast : ∀ v, ∃ u, g (.value v) = .value u)
    (hfresh : i.op.isCast = true → f.stack.head?.any Expr.isUninit = false) (ds : List (Datum V)) (w : World V H)
    (hds : List.Forall₂ Expr.Shows [arg] ds) : e.Shows (M.unary g ds w).1 := by
  cases hds with
  | @cons _ d _ _ hd hnil =>
      cases hnil
      rcases hshows with hc | hv
      · cases d with
        | value v =>
            obtain ⟨u, hu⟩ := hcast v
            simp [unary, hu, shows_value]
        | fresh name alloc =>
            have htop := hfresh hc
            rw [hs, hd name alloc rfl] at htop
            cases htop
      · obtain ⟨u, hu⟩ := hv d
        simp [unary, hu, shows_value]

theorem moves_unary {build} (wide : Bool) (he : ∀ e, M.Computes [e] (M.unary g) (build e))
    (hshows : i.op.isCast = true ∨ ∀ d, ∃ v, g d = .value v) (hcast : ∀ v, ∃ u, g (.value v) = .value u)
    (h : Sim.unary i build f = .ok ((), f')) : Moves M ctx i f (.compute 1 wide (M.unary g)) f' none := by
  obtain ⟨e, rest, hs, rfl⟩ := Sim.unary_inv h
  exact .compute hs (he e) (shows_unary hs hshows hcast)

theorem moves_binary {build} {g : Datum V → Datum V → Datum V} (wide : Bool)
    (he : ∀ l r, M.Computes [l, r] (M.binary g) (build l r)) (hv : ∀ a b, ∃ v, g a b = .value v)
    (h : Sim.binary i build f = .ok ((), f')) : Moves M ctx i f (.compute 2 wide (M.binary g)) f' none := by
  obtain ⟨l, r, rest, hs, h⟩ := Sim.pop_pop_inv h
  cases h
  refine .compute hs (he l r) fun _ ds w hds => ?_
  match ds, hds with
  | [a, b], _ =>
      obtain ⟨v, hv⟩ := hv a b
      simp [binary, hv, shows_value]

variable {rest : List Expr} {a : Action}

theorem moves_act {l : List Expr} (wide : Bool) (hs : f.stack = l.reverse ++ rest) (he : M.Computes l (M.act a) e) :
    Moves M ctx i f (.compute l.length wide (M.act a)) { f with stack := e :: rest } none :=
  .compute hs he fun _ _ _ _ => shows_value

theorem ne_dupStore {s : Stmt} (h : ∀ ds, s.isCalm ds = false) (id : Nat) : s ≠ .dupStore id := by
  rintro rfl
  exact absurd (h .empty) (by simp [Stmt.isCalm, Duplicates.get?, Duplicates.empty])

variable {args : List Expr}

theorem performs_expr (he : M.Computes args (M.act a) e)
    (hacts : e.acts = true) : M.Performs args (fun args w => (M.act a args w).2) (.expr e) where
  exec ds σ w := by simp [exec, Stmt.inputs, Stmt.operands, evalList, he.eval, finish]
  within temps dups h e' he' := by
    rw [mem_singleton.mp he']
    exact he.within temps dups h
  written := rfl
  acts _ := Expr.isCalm_of_acts hacts

theorem moves_calls {result}
    (hs : f.stack = args.reverse ++ rest) (he : M.Computes args (M.act a) e) (hacts : e.acts = true)
    (h : Sim.finishCall ctx e result i { f with stack := rest } = .ok ((), f')) :
    Moves M ctx i f (M.calls args.length result a) f' none := by
  unfold Sim.finishCall at h
  unfold calls
  split at h
  · cases h
    rw [if_pos ‹_›]
    exact .perform hs (performs_expr he hacts)
  · cases h
    rw [if_neg ‹_›]
    exact moves_act _ hs he

/-! ### Arguments of calls -/

/-- Arguments as they are written: they give the same and read nothing more. -/
structure SameArgs (M : Model V H) (args args' : List Expr) : Prop where
  eval : ∀ σ w, M.evalList σ args' w = M.evalList σ args w
  within : ∀ temps dups, (∀ a ∈ args, a.Within temps dups) → ∀ a ∈ args', a.Within temps dups

theorem SameArgs.refl (args : List Expr) : SameArgs M args args := ⟨fun _ _ => rfl, fun _ _ h => h⟩

theorem SameArgs.eval_one {e'} (h : SameArgs M [e] [e']) (σ : Env V) (w : World V H) :
    M.eval σ e' w = M.eval σ e w := by
  have hlist := h.eval σ w
  simp only [evalList, Prod.mk.injEq, List.cons.injEq, and_true] at hlist
  exact Prod.ext hlist.1 hlist.2

theorem SameArgs.trans {as bs cs} (h : SameArgs M as bs) (h' : SameArgs M bs cs) : SameArgs M as cs where
  eval σ w := (h'.eval σ w).trans (h.eval σ w)
  within temps dups ha := h'.within temps dups (h.within temps dups ha)

theorem sameArgs_zipWith {g : Expr → ErasedType → Expr} {params} (hlen : args.length = params.length)
    (heval : ∀ x ∈ args.zip params, ∀ (σ : Env V) w, M.eval σ (g x.1 x.2) w = M.eval σ x.1 w)
    (hwithin : ∀ e t temps dups, e.Within temps dups → (g e t).Within temps dups) :
    SameArgs M args (zipWith g args params) := by
  induction args generalizing params with
  | nil => exact ⟨fun _ _ => by simp, by simp⟩
  | cons a args ih =>
      cases params with
      | nil => cases hlen
      | cons t params =>
          simp only [zip_cons_cons, mem_cons, forall_eq_or_imp] at heval
          have hrest := ih (Nat.succ.inj hlen) heval.2
          refine ⟨fun σ w => by simp [evalList, heval.1, hrest.eval], fun temps dups h => ?_⟩
          simp only [mem_cons, forall_eq_or_imp] at h
          simp only [zipWith_cons_cons, mem_cons, forall_eq_or_imp]
          exact ⟨hwithin a t temps dups h.1, hrest.within temps dups h.2⟩

theorem eval_overloadArg (r : Resolver) {arg param}
    (h : arg.ty = .null → param.isNumeric = false) (σ : Env V) (w : World V H) :
    M.eval σ (Sim.overloadArg r arg param) w = M.eval σ arg w := by
  unfold Sim.overloadArg
  split
  · rename_i ht
    simp [eval, castTo, h ht]
  · split
    · rfl
    · simp [eval, castTo, ErasedType.isNumeric]
  · rfl

/-- No number is expected where `null` is passed. -/
def Sane (c : Sim.Call) : Bool :=
  (c.args.zip c.type.params).all fun x => x.1.ty != .null || !x.2.isNumeric

variable {c : Sim.Call}

theorem sameArgs_castArgs (hsane : Sane c = true) (hlen : c.args.length = c.type.params.length) :
    SameArgs M c.args (c.castArgs ctx) := by
  unfold Sim.Call.castArgs
  split
  · refine sameArgs_zipWith hlen (fun x hx σ w => eval_overloadArg _ (fun ht => ?_) σ w)
      fun e t _ _ => Expr.within_of_sources (Sim.sources_overloadArg _ e t)
    have := all_eq_true.mp hsane x hx
    simpa [ht] using this
  · exact .refl _

variable {index : UInt16}

theorem takeCall_inv (h : Sim.takeCall ctx index i f = .ok (c, f')) :
    ∃ args rest, f.stack = args.reverse ++ rest ∧ f' = { f with stack := rest } ∧
      (ctx.pool.memberRef index).toOption = some c.member ∧
      Descriptor.parseMethod? c.member.descriptor = some c.type ∧ args.length = c.type.params.length ∧
      c.args = zipWith Expr.retype args c.type.params := by
  obtain ⟨m, f1, hm, h⟩ := Sim.of_bind_ok h
  obtain ⟨t, f2, ht, h⟩ := Sim.of_bind_ok h
  obtain ⟨args', f3, hargs, h⟩ := Sim.of_bind_ok h
  obtain ⟨args, f4, hpop, hargs⟩ := Sim.of_bind_ok hargs
  obtain ⟨hmember, rfl⟩ := Sim.ofFormat_inv hm
  obtain ⟨htype, rfl⟩ := Sim.methodType_inv ht
  obtain ⟨rest, hs, hlen, rfl⟩ := Sim.popN_inv hpop
  cases hargs
  cases h
  exact ⟨args, rest, hs, rfl, hmember, htype, hlen, rfl⟩

theorem sameArgs_call (hsane : Sane c = true) (hlen : args.length = c.type.params.length)
    (hargs : c.args = zipWith Expr.retype args c.type.params) : SameArgs M args (c.castArgs ctx) := by
  have hretype : SameArgs M args c.args := by
    rw [hargs]
    exact sameArgs_zipWith hlen (fun x _ σ w => eval_retype _ _ w) fun e t _ _ h => Expr.within_retype h t
  exact hretype.trans (sameArgs_castArgs hsane (by simp [hargs, hlen]))

variable {args' : List Expr}

theorem computes_call (h : SameArgs M args args') (kind : InvokeKind) (owner name d : String) (receiver : Option Expr) :
    M.Computes (receiver.toList ++ args) (M.act (.call kind owner name d))
      (.call kind owner name d receiver args') where
  eval σ w := by
    cases receiver with
    | none => simp [eval, evalOption, h.eval]
    | some r => simp [eval, evalOption, evalList, h.eval]
  within temps dups hw := by
    rw [forall_mem_append] at hw
    exact Expr.within_of_operands trivial (forall_mem_append.mpr ⟨hw.1, h.within temps dups hw.2⟩)
  pushable := trivial

theorem computes_dynamic (h : SameArgs M args args') (name d : String) (bootstrap : UInt16) :
    M.Computes args (M.act (.dynamic name d bootstrap)) (.dynamic name d bootstrap args') where
  eval σ w := by simp [eval, h.eval]
  within temps dups hw := Expr.within_of_operands trivial (h.within temps dups hw)
  pushable := trivial

theorem computes_new (h : SameArgs M args args') (name d : String) :
    M.Computes args (M.act (.construct name d)) (.new name d args') where
  eval σ w := by simp [eval, h.eval]
  within temps dups hw := Expr.within_of_operands trivial (h.within temps dups hw)
  pushable := trivial

/-! ### Calls -/

theorem pop_object_inv {k} (h : ((some <$> Sim.pop i) >>= k) f = .ok ((), f')) :
    ∃ e rest, f.stack = e :: rest ∧ k (some e) { f with stack := rest } = .ok ((), f') := by
  rw [map_eq_pure_bind, bind_assoc] at h
  simpa using Sim.pop_bind_inv h

theorem moves_construct {name descriptor alloc}
    (kind : InvokeKind) (owner : String) (hs : f.stack = args.reverse ++ .uninitNew name alloc :: rest)
    (hargs : SameArgs M args args') (honce : Sim.standsOnce alloc rest = true)
    (h : Sim.construct ctx (.new name descriptor args') alloc i { f with stack := rest } = .ok ((), f')) :
    Moves M ctx i f (.initObject args.length kind owner descriptor) f' none := by
  obtain ⟨_, _, hg, h⟩ := Sim.of_bind_ok h
  cases hg
  by_cases hany : rest.any (Sim.isAlloc alloc) = true
  · rw [if_pos hany] at h
    cases h
    exact .construct hs (computes_new hargs name descriptor) hany honce
  · rw [if_neg hany] at h
    cases h
    exact .constructOnly hs (performs_expr (computes_new hargs name descriptor) rfl) (by simpa using hany)

theorem moves_invoke {kind} (hsane : ∀ c f1, Sim.takeCall ctx index i f = .ok (c, f1) → Sane c = true)
    (hvoid : ∀ m t, (ctx.pool.memberRef index).toOption = some m → Descriptor.parseMethod? m.descriptor = some t →
      m.name = "<init>" → t.result = .void) (honce : ∀ c f1 name alloc rest, Sim.takeCall ctx index i f = .ok (c, f1) →
      f1.stack = .uninitNew name alloc :: rest → Sim.standsOnce alloc rest = true)
    (h : Sim.invoke ctx kind index i f = .ok ((), f')) :
    ∃ b, M.invoke ctx kind index = some b ∧ Moves M ctx i f b f' none := by
  obtain ⟨c, f1, hcall, h⟩ := Sim.of_bind_ok h
  obtain ⟨args, rest, hs, rfl, hm, ht, hlen, hargs⟩ := takeCall_inv hcall
  have hsame : SameArgs M args (c.castArgs ctx) := sameArgs_call (hsane c _ hcall) hlen hargs
  have hvoid := hvoid c.member c.type hm ht
  by_cases hk : kind = .static
  · -- there is no receiver
    subst hk
    have h : Sim.finishCall ctx (.call .static c.member.className c.member.name c.member.descriptor none
        (c.castArgs ctx)) c.type.result i { f with stack := rest } = .ok ((), f') := by
      by_cases hn : c.member.name = "<init>" <;> simpa [hn] using h
    refine ⟨M.calls args.length c.type.result
      (.call .static c.member.className c.member.name c.member.descriptor), ?_, ?_⟩
    · simp [invoke, hm, ht, hlen]
    · exact moves_calls hs (computes_call hsame .static _ _ _ none) rfl h
  · simp only [if_neg hk] at h
    obtain ⟨r, rest', rfl, h⟩ := pop_object_inv h
    have hs'' : f.stack = (r :: args).reverse ++ rest' := by simp [hs]
    by_cases hn : c.member.name = "<init>"
    · refine ⟨.initObject c.type.params.length kind c.member.className c.member.descriptor,
        by simp [invoke, hm, ht, hk, hn], ?_⟩
      rw [← hlen]
      simp only [if_pos hn] at h
      have hplain : r.isUninit = false → Sim.finishCall ctx (.call kind c.member.className c.member.name
          c.member.descriptor (some r) (c.castArgs ctx)) c.type.result i { f with stack := rest' } = .ok ((), f') →
          Moves M ctx i f (.initObject args.length kind c.member.className c.member.descriptor) f' none := by
        intro hr h
        rw [Sim.finishCall, if_pos (hvoid hn)] at h
        cases h
        rw [hn] at *
        exact .initObject hs hr (performs_expr (computes_call hsame kind _ "<init>" _ (some r)) rfl)
      cases r with
      | uninitNew name alloc => exact moves_construct kind _ hs hsame (honce _ _ name alloc rest' hcall rfl) h
      | _ => exact hplain rfl h
    · simp only [if_neg hn] at h
      refine ⟨M.calls (r :: args).length c.type.result
        (.call kind c.member.className c.member.name c.member.descriptor), ?_, ?_⟩
      · simp [invoke, hm, ht, hk, hn, hlen]
      · exact moves_calls hs'' (computes_call hsame kind _ _ _ (some r)) rfl h

theorem moves_invokeDynamic (h : Sim.invokeDynamic ctx index i f = .ok ((), f')) :
    ∃ b, M.invokeDynamic ctx index = some b ∧ Moves M ctx i f b f' none := by
  obtain ⟨site, f1, hsite, h⟩ := Sim.of_bind_ok h
  obtain ⟨t, f2, ht, h⟩ := Sim.of_bind_ok h
  obtain ⟨args', f3, hargs, h⟩ := Sim.of_bind_ok h
  obtain ⟨args, f4, hpop, hargs⟩ := Sim.of_bind_ok hargs
  obtain ⟨hmember, rfl⟩ := Sim.ofFormat_inv hsite
  obtain ⟨htype, rfl⟩ := Sim.methodType_inv ht
  obtain ⟨rest, hs, hlen, rfl⟩ := Sim.popN_inv hpop
  cases hargs
  have hsame : SameArgs M args (zipWith Expr.retype args t.params) :=
    sameArgs_zipWith hlen (fun x _ σ w => eval_retype _ _ w) fun e t _ _ h => Expr.within_retype h t
  refine ⟨M.calls args.length t.result (.dynamic site.name site.descriptor site.bootstrap), ?_, ?_⟩
  · simp [invokeDynamic, hmember, htype, hlen]
  · exact moves_calls hs (computes_dynamic hsame _ _ _) rfl h

/-! ### Fields and arrays -/

theorem computes_fieldGet (owner name : String) (t : ErasedType) (object : Option Expr) :
    M.Computes object.toList (M.act (.fieldGet owner name t)) (.fieldGet owner name t object) := by
  refine computes_of (fun σ w => ?_) (fun _ h => h) (fun _ _ => trivial) trivial
  cases object <;> simp [eval, evalOption, evalList]

theorem moves_getField {hasObject} (h : Sim.getField ctx index hasObject i f = .ok ((), f')) :
    ∃ b, M.getField ctx index hasObject.toNat = some b ∧ Moves M ctx i f b f' none := by
  obtain ⟨m, f1, hm, h1⟩ := Sim.of_bind_ok h
  obtain ⟨t, f2, ht, hget⟩ := Sim.of_bind_ok h1
  obtain ⟨hmember, rfl⟩ := Sim.ofFormat_inv hm
  obtain ⟨htype, rfl⟩ := Sim.fieldType_inv ht
  refine ⟨.compute hasObject.toNat t.isWide (M.act (.fieldGet m.className m.name t)),
    by simp [getField, hmember, htype], ?_⟩
  cases hasObject with
  | false =>
      cases hget
      exact moves_act _ rfl (computes_fieldGet _ _ _ none)
  | true =>
      obtain ⟨e, rest, hs, hpush⟩ := pop_object_inv hget
      cases hpush
      exact moves_act _ hs (computes_fieldGet _ _ _ (some e))

theorem performs_act {s} (hsame : SameArgs M args s.operands)
    (hfinish : ∀ σ ds (w : World V H), M.finish σ s ds w = ⟨σ, (M.act a ds w).2, none⟩)
    (hwritten : s.written? = none) (hacts : ∀ ds, s.isCalm ds = false) :
    M.Performs args (fun args w => (M.act a args w).2) s where
  exec ds σ w := by
    have hinputs : s.inputs ds = s.operands := by
      cases s with
      | dupStore id => exact absurd rfl (ne_dupStore hacts id)
      | _ => rfl
    simp [exec, hinputs, hsame.eval, hfinish]
  within := hsame.within
  written := hwritten
  acts := hacts

theorem sameArgs_retype_last (args : List Expr) (value : Expr) (t : ErasedType) :
    SameArgs M (args ++ [value]) (args ++ [value.retype t]) where
  eval σ w := by simp [evalList_append, evalList, eval_retype]
  within temps dups h a ha := by
    rcases mem_append.mp ha with ha | ha
    · exact h a (mem_append_left _ ha)
    · rw [mem_singleton.mp ha]
      exact Expr.within_retype (h value (by simp)) t

theorem moves_putField {hasObject} (h : Sim.putField ctx index hasObject i f = .ok ((), f')) :
    ∃ b, M.putField ctx index (hasObject.toNat + 1) = some b ∧ Moves M ctx i f b f' none := by
  obtain ⟨m, f1, hm, h⟩ := Sim.of_bind_ok h
  obtain ⟨t, f2, ht, h⟩ := Sim.of_bind_ok h
  obtain ⟨value, rest, hs, hput⟩ := Sim.pop_bind_inv h
  obtain ⟨hmember, rfl⟩ := Sim.ofFormat_inv hm
  obtain ⟨htype, rfl⟩ := Sim.fieldType_inv ht
  refine ⟨.perform (hasObject.toNat + 1) fun args w => (M.act (.fieldPut m.className m.name t) args w).2,
    by simp [putField, hmember, htype], ?_⟩
  cases hasObject with
  | false =>
      cases hput
      exact .perform (l := [value]) hs
        (performs_act (sameArgs_retype_last [] value t) (fun _ _ _ => rfl) rfl fun _ => rfl)
  | true =>
      obtain ⟨e, rest', rfl, h⟩ := pop_object_inv hput
      cases h
      exact .perform (l := [e, value]) hs
        (performs_act (sameArgs_retype_last [e] value t) (fun _ _ _ => rfl) rfl fun _ => rfl)

theorem moves_arrayLoad {kind} (wide : Bool) (h : Sim.arrayLoad kind i f = .ok ((), f')) :
    Moves M ctx i f (.compute 2 wide (M.act .arrayGet)) f' none := by
  obtain ⟨array, index, rest, hs, h⟩ := Sim.pop_pop_inv h
  cases h
  exact moves_act (l := [array, index]) _ hs
    (computes_of (by simp [eval, evalList]) (fun _ h => h) (fun _ _ => trivial) trivial)

theorem moves_arrayStore {kind} (h : Sim.arrayStore ctx kind i f = .ok ((), f')) :
    Moves M ctx i f (.perform 3 fun args w => (M.act .arrayPut args w).2) f' none := by
  obtain ⟨value, rest, hs, h⟩ := Sim.pop_bind_inv h
  obtain ⟨array, index, rest', rfl, h⟩ := Sim.pop_pop_inv h
  cases h
  exact .perform (l := [array, index, value]) hs
    (performs_act (sameArgs_retype_last [array, index] value _) (fun _ _ _ => rfl) rfl fun _ => rfl)

/-! ### Types that the pool names -/

theorem computes_newArray (t : ErasedType) (dims : List Expr) :
    M.Computes dims (M.act (.newArray t)) (.newArray t dims) :=
  computes_of (fun _ _ => rfl) (fun _ h => h) (fun _ _ => trivial) trivial

theorem moves_ofClass {l} {build : ErasedType → Expr} {run} (hs : f.stack = l.reverse ++ rest)
    (hc : ∀ t, M.Computes l (run t) (build t))
    (hshows : ∀ t, (i.op.isCast = true → f.stack.head?.any Expr.isUninit = false) →
      ∀ ds w, List.Forall₂ Expr.Shows l ds → (build t).Shows (run t ds w).1)
    (h : (Sim.operandType ctx index >>= fun t => Sim.push (build t)) { f with stack := rest } = .ok ((), f')) :
    ∃ b, ofClass ctx index l.length run = some b ∧ Moves M ctx i f b f' none := by
  obtain ⟨t, f2, ht, h⟩ := Sim.of_bind_ok h
  obtain ⟨name, hname, rfl, rfl⟩ := Sim.operandType_inv ht
  cases h
  exact ⟨_, by simp only [ofClass, hname]; rfl, .compute hs (hc _) (hshows _)⟩

/-! ### Constants -/

theorem computes_constant {pool} (h : (Sim.constantValue pool index).toOption = some e) :
    ∃ v, M.poolConstant pool index = some v ∧ M.Computes [] (fun _ w => (.value v, w)) e := by
  unfold Sim.constantValue at h
  unfold poolConstant
  cases hc : pool.get index with
  | error fault =>
      rw [hc] at h
      cases h
  | ok c =>
      rw [hc] at h
      cases c with
      | string text =>
          cases ht : pool.utf8 text with
          | error fault => simp [ht, bind, Except.bind, Except.toOption] at h
          | ok text =>
              simp only [ht, bind, Except.bind, Except.toOption, pure, Except.pure, Option.some.injEq] at h
              subst h
              exact ⟨_, by simp [ht, Except.toOption],
                computes_literal (fun _ _ => rfl) rfl (fun _ _ => trivial) trivial⟩
      | classRef name =>
          cases ht : pool.className index with
          | error fault => simp [ht, bind, Except.bind, Except.toOption] at h
          | ok name =>
              simp only [ht, bind, Except.bind, Except.toOption, pure, Except.pure, Option.some.injEq] at h
              subst h
              exact ⟨_, by simp [Except.toOption],
                computes_literal (fun _ _ => rfl) rfl (fun _ _ => trivial) trivial⟩
      | _ =>
          cases h
          exact ⟨_, rfl, computes_literal (fun _ _ => rfl) rfl (fun _ _ => trivial) trivial⟩

theorem moves_constant (wide : Bool)
    (h : (Sim.ofFormat (Sim.constantValue ctx.pool index) >>= Sim.push) f = .ok ((), f')) :
    ∃ b, (M.poolConstant ctx.pool index).map (pushes wide) = some b ∧ Moves M ctx i f b f' none := by
  obtain ⟨e, f1, he, hpush⟩ := Sim.of_bind_ok h
  obtain ⟨hconst, rfl⟩ := Sim.ofFormat_inv he
  obtain ⟨v, hv, hcomputes⟩ := computes_constant hconst
  cases hpush
  exact ⟨pushes wide v, by rw [hv]; rfl, moves_push wide hcomputes shows_value⟩

/-! ### Conditions -/

@[simp] theorem holds_ofBool (b : Bool) : M.holds (.value (M.ofBool b)) = b := by
  unfold holds ofBool
  rw [M.compare_int]
  cases b <;> rfl

theorem within_compare {temps dups l r} (op : CmpOp) (hl : l.Within temps dups)
    (hr : r.Within temps dups) : (Expr.compare op l r).Within temps dups :=
  Expr.within_of_operands trivial (forall_mem_cons.mpr ⟨hl, forall_mem_singleton.mpr hr⟩)

theorem eval_compare (op : CmpOp) (l r : Expr) (σ : Env V) (w : World V H) : M.eval σ (.compare op l r) w =
      (.value (M.ofBool (M.compare op (M.eval σ l w).1 (M.eval σ r (M.eval σ l w).2).1)),
        (M.eval σ r (M.eval σ l w).2).2) := rfl

theorem decides_compare (op : CmpOp) {l r l' r'} (hl : SameArgs M [l] [l']) (hr : SameArgs M [r] [r'])
    (taken other : BlockId) :
    M.Decides [l, r] (decideBy₂ (M.compare op) taken other) (.cond (.compare op l' r') taken other) := by
  refine ⟨fun σ w => ?_, fun temps dups h e he => ?_⟩
  · simp [decide, eval_compare, hl.eval_one, hr.eval_one, evalList, decideBy₂]
  · cases he
    refine within_compare op (hl.within temps dups ?_ _ (mem_singleton_self _))
      (hr.within temps dups ?_ _ (mem_singleton_self _))
    · exact fun a ha => h a (by simp [mem_singleton.mp ha])
    · exact fun a ha => h a (by simp [mem_singleton.mp ha])

theorem sameArgs_retype (e : Expr) (t : ErasedType) : SameArgs M [e] [e.retype t] :=
  sameArgs_retype_last [] e t

theorem eval_negate (he : M.Pushable e) (σ : Env V) (w : World V H) :
    M.holds (M.eval σ e.negate w).1 = !M.holds (M.eval σ e w).1 ∧ (M.eval σ e.negate w).2 = (M.eval σ e w).2 := by
  cases e with
  | compare op l r | logical op l r => exact he.elim
  | _ => simp [Expr.negate, eval]

theorem decides_zeroTest (op : CmpOp) {v : Expr} (hv : M.Pushable v) (taken other : BlockId) :
    M.Decides [v] (decideBy (fun a => M.compare op a (.value (M.int 0))) taken other)
      (.cond (.zeroTest op v) taken other) := by
  suffices h : (∀ σ w, M.holds (M.eval σ (.zeroTest op v) w).1 =
        M.compare op (M.eval σ v w).1 (.value (M.int 0))) ∧
      ∀ σ w, (M.eval σ (.zeroTest op v) w).2 = (M.eval σ v w).2 by
    refine ⟨fun σ w => by simp [decide, h.1, h.2, evalList, decideBy], fun temps dups hw e he => ?_⟩
    cases he
    exact Expr.within_of_sources (Expr.sources_zeroTest op v) (hw v (mem_singleton_self v))
  unfold Expr.zeroTest
  split
  · exact ⟨fun σ w => by simp [eval, M.compare_order op _ _ (hv _ _)], fun _ _ => rfl⟩
  · split
    · rename_i h
      rw [h.2]
      exact ⟨fun _ _ => rfl, fun _ _ => rfl⟩
    · split
      · rename_i h
        rw [h.2]
        refine ⟨fun σ w => ?_, fun σ w => (eval_negate hv σ w).2⟩
        rw [(eval_negate hv σ w).1, M.compare_eq]
        rfl
      · exact ⟨fun σ w => by simp [eval_retype, eval], fun σ w => by simp [eval_retype, eval]⟩

theorem decides_null (op : CmpOp) (v : Expr) (taken other : BlockId) :
    M.Decides [v] (decideBy (fun a => M.compare op a (.value M.null)) taken other)
      (.cond (.compare op v .nullLit) taken other) := by
  refine ⟨fun σ w => by simp [decide, eval, evalList, decideBy], fun temps dups h e he => ?_⟩
  cases he
  refine within_compare op (h v (mem_singleton_self v)) ?_
  simp [Expr.Within, Expr.nodes, Expr.LeafWithin]

theorem decides_switch (v : Expr) (default : BlockId) (cases : List (Int32 × BlockId)) :
    M.Decides [v] (fun args => .to ((args.head?.map (M.select · default cases)).getD default))
      (.switch v default cases) := by
  refine ⟨fun σ w => by simp [decide, evalList], fun temps dups h e he => ?_⟩
  cases he
  exact h v (mem_singleton_self v)

/-! ### Locals -/

theorem var_empty (slot : UInt16) (kind : ValueKind) (pc : Nat) (isStore : Bool) :
    (Locals.empty.var slot kind pc isStore).IsSlot slot := ⟨rfl, rfl⟩

variable {slot : UInt16}

theorem moves_load {kind} (hlocals : ctx.locals = .empty) (wide : Bool)
    (h : Sim.load ctx kind slot i f = .ok ((), f')) : Moves M ctx i f (.load wide slot) f' none := by
  unfold Sim.load at h
  split at h
  · rename_i hself
    cases h
    obtain ⟨hstatic, rfl, -⟩ := hself
    exact .loadSelf (by simpa using hstatic)
  · cases h
    exact .load (hlocals ▸ var_empty slot kind i.offset false)

theorem moves_store {kind} (hop : i.op = .store kind slot) (hlocals : ctx.locals = .empty)
    (hpush : ∀ e ∈ f.stack, M.Pushable e) (h : Sim.store ctx kind slot i f = .ok ((), f')) :
    Moves M ctx i f (.store slot) f' none := by
  obtain ⟨value, rest, hs, h⟩ := Sim.pop_bind_inv h
  have hvalue := hpush value (by simp [hs])
  cases value with
  | returnAddress => exact hvalue.elim
  | _ =>
      obtain ⟨⟨⟩, f2, hspill, hemit⟩ := Sim.of_bind_ok h
      cases hemit
      exact .store hop (hlocals ▸ var_empty slot kind i.offset true) hs hspill

theorem moves_increment {amount} (hop : i.op = .increment slot amount) (hlocals : ctx.locals = .empty)
    (h : Sim.increment ctx slot amount i f = .ok ((), f')) :
    Moves M ctx i f (.increment slot amount.toInt32) f' none := by
  obtain ⟨⟨⟩, f2, hspill, hemit⟩ := Sim.of_bind_ok h
  cases hemit
  exact .increment hop (hlocals ▸ var_empty slot .int i.offset false) hspill

/-! ### Casts and monitors -/

theorem computes_cast (t : ErasedType) (e : Expr) : M.Computes [e] (M.unary (M.castTo t)) (.cast t e) :=
  computes_unary (b := .cast t) (fun _ _ _ => rfl) (fun _ => rfl) (fun _ _ _ => trivial)
    (fun _ => trivial) e

theorem castTo_value (t : ErasedType) (v : V) : ∃ u, M.castTo t (.value v) = .value u := by
  unfold castTo
  split <;> exact ⟨_, rfl⟩

theorem moves_cast {build t} (wide : Bool) (hop : i.op.isCast = true)
    (hbuild : build = .cast t) (h : Sim.unary i build f = .ok ((), f')) :
    Moves M ctx i f (.compute 1 wide (M.unary (M.castTo t))) f' none := by
  subst hbuild
  exact moves_unary wide (computes_cast t) (.inl hop) (castTo_value t) h

theorem moves_popEmit {s : Expr → Stmt} (hoperands : ∀ e, (s e).operands = [e])
    (hfinish : ∀ e σ ds (w : World V H), M.finish σ (s e) ds w = ⟨σ, (M.act a ds w).2, none⟩)
    (hwritten : ∀ e, (s e).written? = none) (hacts : ∀ e ds, (s e).isCalm ds = false)
    (h : (Sim.pop i >>= fun e => Sim.emit ctx (s e) i) f = .ok ((), f')) :
    Moves M ctx i f (.perform 1 fun args w => (M.act a args w).2) f' none := by
  obtain ⟨e, rest, hs, hemit⟩ := Sim.pop_bind_inv h
  cases hemit
  have hsame : SameArgs M [e] (s e).operands := by
    rw [hoperands]
    exact .refl _
  exact .perform hs (performs_act hsame (hfinish e) (hwritten e) (hacts e))

/-! ### Operators -/

theorem moves_arith {kind op} (wide : Bool)
    (h : Sim.binary i (fun l r => .binary op (Sim.arithType kind op l r) l r) f = .ok ((), f')) :
    Moves M ctx i f (.compute 2 wide (M.binary fun a b => .value (M.arith op a b))) f' none := by
  refine moves_binary wide (fun l r => ?_) (fun _ _ => ⟨_, rfl⟩) h
  exact computes_binary (b := fun l r => .binary op (Sim.arithType kind op l r) l r)
    (fun _ _ _ _ => rfl) (fun _ _ => rfl) (fun _ _ _ _ => trivial) (fun _ _ => trivial) l r

theorem moves_neg (wide : Bool) (h : Sim.unary i .neg f = .ok ((), f')) :
    Moves M ctx i f (.compute 1 wide (M.unary fun a => .value (M.neg a))) f' none := by
  refine moves_unary wide (fun e => ?_) (.inr fun _ => ⟨_, rfl⟩) (fun _ => ⟨_, rfl⟩) h
  exact computes_unary (b := .neg) (fun _ _ _ => rfl) (fun _ => rfl) (fun _ _ _ => trivial) (fun _ => trivial) e

theorem moves_threeWay {g} (hord : ∀ l r, M.unordered l r = false)
    (hg : ∀ a b, g a b = .value (M.int (M.order a b))) (h : Sim.binary i .cmpResult f = .ok ((), f')) :
    Moves M ctx i f (.compute 2 false (M.binary g)) f' none := by
  refine moves_binary false (fun l r => ?_) (fun a b => ⟨_, hg a b⟩) h
  exact computes_binary (b := .cmpResult) (fun σ l r w => by simp only [eval, hg])
    (fun _ _ => rfl) (fun _ _ _ _ => trivial) (fun _ _ => hord) l r

/-! ### Exits -/

theorem moves_popDecide {x : Expr → Exit} {left} (hd : ∀ v ∈ f.stack, M.Decides [v] left (x v))
    (h : (Sim.pop i >>= fun v => pure (some (x v))) f = .ok (exit, f')) : Moves M ctx i f (.depart 1 left) f' exit := by
  obtain ⟨v, rest, hs, hexit⟩ := Sim.pop_bind_inv h
  cases hexit
  exact .decide hs (hd v (by simp [hs]))

theorem moves_popPopDecide {x : Expr → Expr → Exit} {left} (hd : ∀ l r, M.Decides [l, r] left (x l r))
    (h : (Sim.pop i >>= fun r => Sim.pop i >>= fun l => pure (some (x l r))) f = .ok (exit, f')) :
    Moves M ctx i f (.depart 2 left) f' exit := by
  obtain ⟨l, r, rest, hs, hexit⟩ := Sim.pop_pop_inv h
  cases hexit
  exact .decide hs (hd l r)

theorem moves_popLeave {s : Expr → Stmt} {x left} (hl : ∀ v, M.Leaves [v] left (s v)) (hx : x.operand? = none)
    (h : (Sim.pop i >>= fun v => Sim.emit ctx (s v) i >>= fun _ => pure (some x)) f = .ok (exit, f')) :
    Moves M ctx i f (.depart 1 left) f' exit := by
  obtain ⟨v, rest, hs, hexit⟩ := Sim.pop_bind_inv h
  cases hexit
  exact .leave hs (hl v) hx

theorem leaves_return (v : Expr) (t : ErasedType) :
    M.Leaves [v] (fun args => .returned args.head?) (.leave (some (v.retype t))) where
  exec ds σ w := by simp [exec, Stmt.inputs, Stmt.operands, evalList, eval_retype, finish]
  within := (sameArgs_retype (M := M) v t).within
  written := rfl
  dup := by simp

theorem leaves_throw (v : Expr) : M.Leaves [v] (fun args => .thrown (args.head?.getD (.value M.null))) (.throw v) where
  exec ds σ w := by simp [exec, Stmt.inputs, Stmt.operands, evalList, finish]
  within _ _ h := h
  written := rfl
  dup := by simp

/-! ### Objects and arrays -/

theorem moves_new (h : (Sim.ofFormat (ctx.pool.className index) >>= fun name => Sim.push (.uninitNew name i.offset)) f =
      .ok ((), f')) : ∃ b, ((ctx.pool.className index).toOption >>= fun name =>
      pure (.compute 0 false fun _ w => (.fresh name i.offset, w))) = some b ∧ Moves M ctx i f b f' none := by
  obtain ⟨name, f1, hname, hput⟩ := Sim.of_bind_ok h
  obtain ⟨hclass, rfl⟩ := Sim.ofFormat_inv hname
  cases hput
  refine ⟨_, by simp only [hclass]; rfl, moves_push false ⟨fun _ _ => rfl, fun _ _ _ => ?_, trivial⟩ ?_⟩
  · simp [Expr.Within, Expr.nodes, Expr.LeafWithin]
  · intro _ _ h
    cases h
    rfl

theorem moves_newMultiArray {n : Nat}
    (h : (Sim.popN n i >>= fun dims => Sim.operandType ctx index >>= fun t => Sim.push (.newArray t dims)) f =
      .ok ((), f')) : ∃ b, ofClass ctx index n (fun t => M.act (.newArray t)) = some b ∧ Moves M ctx i f b f' none := by
  obtain ⟨dims, f1, hpop, hc⟩ := Sim.of_bind_ok h
  obtain ⟨rest, hs, rfl, rfl⟩ := Sim.popN_inv hpop
  exact moves_ofClass hs (fun _ => computes_newArray _ dims) (fun _ _ _ _ _ => shows_value) hc

theorem moves_arrayLength (h : Sim.unary i .arrayLength f = .ok ((), f')) :
    Moves M ctx i f (.compute 1 false (M.act .arrayLength)) f' none := by
  obtain ⟨e, rest, hs, rfl⟩ := Sim.unary_inv h
  exact moves_act (l := [e]) _ hs
    (computes_of (by simp [eval, evalList]) (fun _ h => h) (fun _ _ => trivial) trivial)

theorem moves_checkCast (hop : i.op.isCast = true)
    (h : (Sim.pop i >>= fun e => Sim.operandType ctx index >>= fun t => Sim.push (.cast t e)) f = .ok ((), f')) :
    ∃ b, ofClass ctx index 1 (fun t => M.unary (M.castTo t)) = some b ∧ Moves M ctx i f b f' none := by
  obtain ⟨e, rest, hs, hc⟩ := Sim.pop_bind_inv h
  exact moves_ofClass hs (fun t => computes_cast t e) (fun t => shows_unary hs (.inl hop) (castTo_value t)) hc

theorem moves_instanceOf
    (h : (Sim.pop i >>= fun e => Sim.operandType ctx index >>= fun t => Sim.push (.instanceOf e t)) f = .ok ((), f')) :
    ∃ b, ofClass ctx index 1 (fun t => M.unary fun a => .value (M.ofBool (M.instanceOf t a))) = some b ∧
      Moves M ctx i f b f' none := by
  obtain ⟨e, rest, hs, hc⟩ := Sim.pop_bind_inv h
  refine moves_ofClass hs (fun t => ?_) (fun t => shows_unary hs (.inr fun _ => ⟨_, rfl⟩) fun _ => ⟨_, rfl⟩) hc
  exact computes_unary (b := (.instanceOf · t)) (fun _ _ _ => rfl) (fun _ => rfl) (fun _ _ _ => trivial)
    (fun _ => trivial) e

/-! ### One instruction -/

/-- What the simulation does not ask of an instruction: subroutines are left out, nothing is unordered
where it compares, and calls are as verified code makes them. -/
structure Regular (M : Model V H) (ctx : MethodContext) (i : Instruction) (f : Frame) : Prop where
  jsr : ∀ t, i.op ≠ .jsr t
  ret : ∀ slot, i.op ≠ .ret slot
  ordered : i.op.isThreeWay = true → ∀ l r, M.unordered l r = false
  sane : ∀ index c f1, Sim.calledIndex? i.op = some index → Sim.takeCall ctx index i f = .ok (c, f1) →
    Sane c = true
  void : ∀ index m t, Sim.calledIndex? i.op = some index → (ctx.pool.memberRef index).toOption = some m →
    Descriptor.parseMethod? m.descriptor = some t → m.name = "<init>" → t.result = .void
  once : ∀ index c f1 name alloc rest, Sim.calledIndex? i.op = some index →
    Sim.takeCall ctx index i f = .ok (c, f1) → f1.stack = .uninitNew name alloc :: rest →
      Sim.standsOnce alloc rest = true

theorem moves_step (hi : Regular M ctx i f) (hlocals : ctx.locals = .empty)
    (hpush : ∀ e ∈ f.stack, M.Pushable e) (h : Sim.step ctx i f = .ok (exit, f')) :
    ∃ b, M.behaviour ctx i = some b ∧ Moves M ctx i f b f' exit := by
  have hstep := h
  unfold Sim.step at h
  unfold behaviour
  cases hop : i.op <;> simp only [hop] at h <;> try obtain ⟨rfl, hc⟩ := Sim.stay_inv h
  case nop =>
    cases h
    exact ⟨_, rfl, .shuffle (by rw [hop]; rfl) hstep⟩
  case pop | pop2 | dup | dupX1 | dupX2 | dup2 | dup2X1 | dup2X2 | swap =>
    exact ⟨_, rfl, .shuffle (by rw [hop]; rfl) hstep⟩
  case nullConst | intConst v | longConst v | floatConst v | doubleConst v =>
    cases h
    exact ⟨_, rfl, moves_push _ (computes_literal (fun _ _ => rfl) rfl (fun _ _ => trivial) trivial) shows_value⟩
  case loadConst index | loadWideConst index => exact moves_constant _ hc
  case load kind slot => exact ⟨_, rfl, moves_load hlocals _ hc⟩
  case store kind slot => exact ⟨_, rfl, moves_store hop hlocals hpush hc⟩
  case increment slot amount => exact ⟨_, rfl, moves_increment hop hlocals hc⟩
  case arrayLoad kind => exact ⟨_, rfl, moves_arrayLoad _ hc⟩
  case arrayStore kind => exact ⟨_, rfl, moves_arrayStore hc⟩
  case arith kind op => exact ⟨_, rfl, moves_arith _ hc⟩
  case neg kind => exact ⟨_, rfl, moves_neg _ hc⟩
  case convert source target | narrow kind => exact ⟨_, rfl, moves_cast _ (by rw [hop]; rfl) rfl hc⟩
  case longCompare => exact ⟨_, rfl, moves_threeWay (hi.ordered (by rw [hop]; rfl)) (fun _ _ => rfl) hc⟩
  case floatCompare bias | doubleCompare bias =>
    have hord := hi.ordered (by rw [hop]; rfl)
    exact ⟨_, rfl, moves_threeWay hord (fun a b => by simp [compareTo, hord]) hc⟩
  case ifZero op target => exact ⟨_, rfl, moves_popDecide (fun v hv => decides_zeroTest op (hpush v hv) _ _) h⟩
  case ifIntCmp op target =>
    exact ⟨_, rfl, moves_popPopDecide
      (fun _ _ => decides_compare op (sameArgs_retype _ _) (sameArgs_retype _ _) _ _) h⟩
  case ifRefCmp op target =>
    exact ⟨_, rfl, moves_popPopDecide (fun _ _ => decides_compare op (.refl _) (.refl _) _ _) h⟩
  case ifNull target | ifNonNull target => exact ⟨_, rfl, moves_popDecide (fun v _ => decides_null _ v _ _) h⟩
  case goto target =>
    cases h
    exact ⟨_, rfl, .decide (l := []) rfl ⟨fun _ _ => rfl, by simp [Exit.operand?]⟩⟩
  case jsr target => exact absurd hop (hi.jsr target)
  case ret slot => exact absurd hop (hi.ret slot)
  case tableSwitch default low high targets | lookupSwitch default pairs =>
    exact ⟨_, rfl, moves_popDecide (fun v _ => decides_switch v _ _) h⟩
  case leave kind =>
    cases kind with
    | none =>
        cases h
        exact ⟨_, rfl, .leave (l := []) rfl ⟨fun _ _ _ => rfl, by simp [Stmt.operands], rfl, by simp⟩ rfl⟩
    | some kind => exact ⟨_, rfl, moves_popLeave (leaves_return · _) rfl h⟩
  case throw => exact ⟨_, rfl, moves_popLeave leaves_throw rfl h⟩
  case getStatic index | getField index => exact moves_getField hc
  case putStatic index | putField index => exact moves_putField hc
  case invokeVirtual index | invokeSpecial index | invokeStatic index | invokeInterface index count =>
    have hindex : Sim.calledIndex? i.op = some index := by rw [hop]; rfl
    exact moves_invoke (fun c f1 => hi.sane index c f1 hindex) (fun m t => hi.void index m t hindex)
      (fun c f1 name alloc rest => hi.once index c f1 name alloc rest hindex) hc
  case invokeDynamic index => exact moves_invokeDynamic hc
  case new index => exact moves_new hc
  case newArray code =>
    obtain ⟨e, rest, hs, rfl⟩ := Sim.unary_inv hc
    exact ⟨_, rfl, moves_act _ hs (computes_newArray _ [e])⟩
  case newRefArray index =>
    obtain ⟨n, rest, hs, hc⟩ := Sim.pop_bind_inv hc
    exact moves_ofClass hs (fun _ => computes_newArray _ [n]) (fun _ _ _ _ _ => shows_value) hc
  case newMultiArray index dimensions => exact moves_newMultiArray hc
  case arrayLength => exact ⟨_, rfl, moves_arrayLength hc⟩
  case checkCast index => exact moves_checkCast (by rw [hop]; rfl) hc
  case instanceOf index => exact moves_instanceOf hc
  case monitorEnter | monitorExit =>
    exact ⟨_, rfl, moves_popEmit (fun _ => rfl) (fun _ _ _ _ => rfl) (fun _ => rfl) (fun _ _ => rfl) hc⟩

end Model

end JvmLift
