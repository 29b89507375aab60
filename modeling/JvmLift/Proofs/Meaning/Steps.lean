import JvmLift.Proofs.Meaning.Shuffles

/-!
# The simulation in step with the machine

A frame and the machine agree if the statements so far have been executed and the entries of the frame, evaluated now,
give what the machine holds. A step keeps them so if no entry that acts on the heap is overtaken by a statement.
-/
namespace JvmLift

open List

variable {V H : Type} {M : Model V H} {ctx : MethodContext} {i : Instruction} {f f' : Frame}
  {ds : Duplicates} {σ : Env V} {w : World V H} {m : Machine V H}

/-! ## What instructions may do -/

/-- May a slot be written? The receiver's is not. -/
def MethodContext.mayWrite (ctx : MethodContext) (slot : UInt16) : Bool := ctx.isStatic || slot != 0

namespace Sim

/-- May entries be dropped? At most one of them acts, so that their order does not show. -/
def mayDrop (es : List Expr) : Bool :=
  (es.all fun e => e.isCalm || e.hasSideEffects) && es.countP (!·.isCalm) ≤ 1

/-- May a method be called? No number is expected where `null` is passed, and an object is constructed
for one entry of the stack. -/
def mayCall (ctx : MethodContext) (index : UInt16) (i : Instruction) (f : Frame) : Bool :=
  match takeCall ctx index i f with
  | .ok (call, f) =>
      Model.Sane call &&
        match f.stack with
        | .uninitNew _ alloc :: rest => standsOnce alloc rest
        | _ => true
  | .error _ => true

/-- May an instruction be performed? Subroutines are left out, and an object under construction is
neither stored nor cast. -/
def allows (ctx : MethodContext) (i : Instruction) (f : Frame) : Bool :=
  match i.op with
  | .jsr _ | .ret _ => false
  | .store _ slot => ctx.mayWrite slot && !f.stack.head?.any Expr.isUninit
  | .increment slot _ => ctx.mayWrite slot
  | .checkCast _ | .convert .. | .narrow _ => !f.stack.head?.any Expr.isUninit
  | .pop | .pop2 => mayDrop (dropped i f)
  | .swap => (f.stack.take 2).any Expr.isCalm
  | op => (calledIndex? op).all fun index => mayCall ctx index i f

/-- Nothing on the stack is overtaken by the statements of a step. -/
def inOrder (f f' : Frame) (exit : Option Exit) : Bool :=
  exit.isNone && f.quietSince f' || f'.stack.all Expr.isCalm

/-- Instructions that may be performed, and none of which overtakes what is on the stack. Temporaries
are numbered with 16 bits, so statements are. -/
def orderly (ctx : MethodContext) : List Instruction → Frame → Bool
  | [], f => f.stack.all Expr.isCalm
  | i :: rest, f =>
      match step ctx i f with
      | .ok (exit, f') => allows ctx i f && inOrder f f' exit && f'.out.length < 65536 && orderly ctx rest f'
      | .error _ => false

end Sim

/-! ## Agreement -/

/-- The statements so far have been executed, and what is on the stack is still to be evaluated. -/
structure Model.Agrees (M : Model V H) (ctx : MethodContext) (f : Frame) (σ : Env V) (w : World V H)
    (m : Machine V H) : Prop where
  stack : M.Gives σ f.stack w m.stack m.world
  slots : σ.slots = m.slots
  values : ∀ n, ∃ v, m.slots n = .value v
  self : ctx.isStatic = false → σ.self = m.slots 0

/-- The frame has grown by statements whose execution makes it agree with the machine. -/
def Model.Advances (M : Model V H) (ctx : MethodContext) (ds : Duplicates) (f f' : Frame) (σ : Env V)
    (w : World V H) (m' : Machine V H) : Prop :=
  ∃ new σ' w', f'.out = f.out ++ new ∧ M.execAll ds σ new w = ⟨σ', w', none⟩ ∧ M.Agrees ctx f' σ' w' m'

namespace Model

theorem Agrees.advances (h : M.Agrees ctx f' σ w m) (hout : f'.out = f.out) : M.Advances ctx ds f f' σ w m :=
  ⟨[], σ, w, by simp [hout], rfl, h⟩

variable {rest : List Expr} {w' : World V H} {below : OperandStack V}

theorem Agrees.emit (h : M.Agrees ctx f σ w m) {s}
    (hexec : M.exec ds σ s w = ⟨σ, w', none⟩) (hrest : M.Gives σ rest w' below w') :
    M.Advances ctx ds f (Frame.emitted { f with stack := rest } ctx s i) σ w ⟨below, m.slots, w'⟩ :=
  ⟨_, σ, w', rfl, by simp [execAll, hexec], hrest, h.slots, h.values, h.self⟩

/-! ## Operands -/

variable {l : List Expr}

theorem Agrees.operands (h : M.Agrees ctx f σ w m) (hs : f.stack = l.reverse ++ rest) :
    ∃ top below w1, m.stack = top ++ below ∧ m.take l.length = some ((top.map (·.2)).reverse, below) ∧
    M.Gives σ rest w below w1 ∧ M.evalList σ l w1 = ((top.map (·.2)).reverse, m.world) ∧
    List.Forall₂ Expr.Shows l (top.map (·.2)).reverse := by
  have hstack := h.stack
  rw [hs] at hstack
  obtain ⟨top, below, w1, hm, hrest, hl⟩ := hstack.split
  have hlen : top.length = l.length := by simpa using hl.length_eq
  refine ⟨top, below, w1, hm, ?_, hrest, by simpa using hl.evalList, ?_⟩
  · simp [Machine.take, hm, ← hlen]
  · exact forall₂_reverse_iff.mp (by simpa using hl.shows)

variable {wide : Bool} {e : Expr}

theorem advances_compute {run} (h : M.Agrees ctx f σ w m) (hs : f.stack = l.reverse ++ rest) (he : M.Computes l run e)
    (hshows : ∀ ds w, List.Forall₂ Expr.Shows l ds → e.Shows (run ds w).1) :
    ∃ m', m.apply M (.compute l.length wide run) = some (m', none) ∧
      M.Advances ctx ds f { f with stack := e :: rest } σ w m' := by
  obtain ⟨top, below, w1, hm, htake, hrest, hl, hds⟩ := h.operands hs
  refine ⟨⟨(wide, (run (top.map (·.2)).reverse m.world).1) :: below, m.slots, (run (top.map (·.2)).reverse m.world).2⟩,
    by simp [Machine.apply, htake], Agrees.advances ⟨?_, h.slots, h.values, h.self⟩ rfl⟩
  refine .cons hrest ?_ ⟨hshows _ _ hds, he.pushable⟩
  rw [he.eval, hl]

theorem advances_perform (ds : Duplicates) {s run}
    (h : M.Agrees ctx f σ w m) (hs : f.stack = l.reverse ++ rest) (hp : M.Performs l run s)
    (hcalm : rest.all Expr.isCalm = true) :
    ∃ top below, m.stack = top ++ below ∧ m.take l.length = some ((top.map (·.2)).reverse, below) ∧
      M.Advances ctx ds f (Frame.emitted { f with stack := rest } ctx s i) σ w
        ⟨below, m.slots, run (top.map (·.2)).reverse m.world⟩ := by
  obtain ⟨top, below, w1, hm, htake, hrest, hl, -⟩ := h.operands hs
  obtain ⟨rfl, hany⟩ := hrest.calm hcalm
  exact ⟨top, below, hm, htake, h.emit (by rw [hp.exec, hl]) (hany _)⟩

/-! ## Objects under construction -/

variable {alloc : Nat}

theorem finishedAt_of_shows {d x : Datum V} (h : e.Shows x) (he : Sim.isAlloc alloc e = false) :
    x.finishedAt alloc d = x := by
  cases x with
  | value v => rfl
  | fresh name a =>
      rw [h name a rfl] at he
      refine if_neg fun ha => ?_
      simp [Sim.isAlloc, ha] at he

variable {s : OperandStack V}

theorem finished_eq_self (h : M.Gives σ rest w s w') (hno : rest.any (Sim.isAlloc alloc) = false) (d : Datum V) :
    s.map (fun x => (x.1, x.2.finishedAt alloc d)) = s := by
  induction h with
  | nil => rfl
  | cons _ _ hstands ih =>
      simp only [any_cons, Bool.or_eq_false_iff] at hno
      simp only [map_cons, finishedAt_of_shows hstands.shows hno.1, ih hno.2]

theorem gives_construct {w1 w2} {d : Datum V} (h : M.Gives σ rest w s w1)
    (hany : rest.any (Sim.isAlloc alloc) = true) (honce : Sim.standsOnce alloc rest = true)
    (he : M.eval σ e w1 = (d, w2)) (hd : M.Stands e d) :
    M.Gives σ (rest.map fun x => if Sim.isAlloc alloc x then e else x) w
      (s.map fun x => (x.1, x.2.finishedAt alloc d)) w2 := by
  induction h with
  | nil => cases hany
  | @cons x rest wide dx s w w1 w' hrest hx hstands ih =>
      unfold Sim.standsOnce at honce
      cases hx' : Sim.isAlloc alloc x with
      | true =>
          rw [hx'] at honce
          have hno : rest.any (Sim.isAlloc alloc) = false := by simpa using honce
          have hrest' : (rest.map fun y => if Sim.isAlloc alloc y then e else y) = rest := by
            rw [map_congr_left (g := id)]
            · simp
            · intro y hy
              simp [any_eq_false.mp hno y hy]
          cases x with
          | uninitNew name a =>
              obtain rfl : a = alloc := beq_iff_eq.mp hx'
              cases hx
              have hd' : (Datum.fresh name a).finishedAt a d = d := if_pos rfl
              simp only [map_cons, hx', hrest', finished_eq_self hrest hno, hd']
              exact .cons hrest he hd
          | _ => cases hx'
      | false =>
          rw [hx'] at honce
          simp only [Bool.false_eq_true, if_false, Bool.and_eq_true] at honce
          simp only [any_cons, hx'] at hany
          obtain ⟨dx', hcalm⟩ := eval_calm honce.1
          rw [hcalm] at hx
          cases hx
          simp only [map_cons, hx', finishedAt_of_shows hstands.shows hx']
          exact .cons (ih hany honce.2 he) (hcalm _) hstands

variable {name : String}

theorem apply_construct (h : M.Agrees ctx f σ w m) {n data}
    (htake : m.take n = some (data, (wide, .fresh name alloc) :: below)) (kind : InvokeKind)
    (owner descriptor : String) : m.apply M (.initObject n kind owner descriptor) =
      some (⟨below.map fun x => (x.1, x.2.finishedAt alloc (M.act (.construct name descriptor) data m.world).1),
        m.slots, (M.act (.construct name descriptor) data m.world).2⟩, none) := by
  have hslots : ∀ d, (fun n => (m.slots n).finishedAt alloc d) = m.slots := by
    intro d
    funext n
    obtain ⟨v, hv⟩ := h.values n
    rw [hv]
    rfl
  simp [Machine.apply, htake, hslots]

variable {args : List Expr} {descriptor : String} {kind : InvokeKind} {owner : String}

theorem advances_construct (h : M.Agrees ctx f σ w m) (hs : f.stack = args.reverse ++ .uninitNew name alloc :: rest)
    (he : M.Computes args (M.act (.construct name descriptor)) e) (hany : rest.any (Sim.isAlloc alloc) = true)
    (honce : Sim.standsOnce alloc rest = true) :
    ∃ m', m.apply M (.initObject args.length kind owner descriptor) = some (m', none) ∧
      M.Advances ctx ds f { f with stack := rest.map fun x => if Sim.isAlloc alloc x then e else x } σ w m' := by
  obtain ⟨top, below, w1, hm, htake, hrest, hargs, -⟩ := h.operands hs
  cases hrest with
  | @cons _ _ wide d below w w2 w1 hrest hd _ =>
      cases hd
      refine ⟨_, apply_construct h htake kind owner descriptor, Agrees.advances ⟨?_, h.slots, h.values, h.self⟩ rfl⟩
      refine gives_construct hrest hany honce ?_ ⟨shows_value, he.pushable⟩
      rw [he.eval, hargs]

theorem advances_constructOnly {s} (h : M.Agrees ctx f σ w m)
    (hs : f.stack = args.reverse ++ .uninitNew name alloc :: rest)
    (hp : M.Performs args (fun args w => (M.act (.construct name descriptor) args w).2) s)
    (hno : rest.any (Sim.isAlloc alloc) = false) (hcalm : rest.all Expr.isCalm = true) :
    ∃ m', m.apply M (.initObject args.length kind owner descriptor) = some (m', none) ∧
      M.Advances ctx ds f (Frame.emitted { f with stack := rest } ctx s i) σ w m' := by
  obtain ⟨top, below, w1, hm, htake, hrest, hargs, -⟩ := h.operands hs
  cases hrest with
  | @cons _ _ wide d below w w2 w1 hrest hd _ =>
      cases hd
      obtain ⟨rfl, hany⟩ := hrest.calm hcalm
      refine ⟨_, apply_construct h htake kind owner descriptor, ?_⟩
      rw [finished_eq_self hrest hno]
      exact h.emit (by rw [hp.exec, hargs]) (hany _)

theorem advances_initObject {receiver s} (h : M.Agrees ctx f σ w m)
    (hs : f.stack = args.reverse ++ receiver :: rest) (hr : receiver.isUninit = false)
    (hp : M.Performs (receiver :: args) (fun args w => (M.act (.call kind owner "<init>" descriptor) args w).2) s)
    (hcalm : rest.all Expr.isCalm = true) :
    ∃ m', m.apply M (.initObject args.length kind owner descriptor) = some (m', none) ∧
      M.Advances ctx ds f (Frame.emitted { f with stack := rest } ctx s i) σ w m' := by
  obtain ⟨top, below, w1, hm, htake, hrest, hargs, -⟩ := h.operands hs
  cases hrest with
  | @cons _ _ wide d below w w2 w1 hrest hd hstands =>
      obtain ⟨v, rfl⟩ := hstands.shows.eq_value hr
      obtain ⟨rfl, hany⟩ := hrest.calm hcalm
      refine ⟨⟨below, m.slots, _⟩, by simp only [Machine.apply, htake]; rfl, h.emit ?_ (hany _)⟩
      simp only [hp.exec, evalList, hd, hargs]

/-! ## Local slots -/

variable {v : LocalVar} {slot : UInt16}

theorem advances_load (h : M.Agrees ctx f σ w m) (hv : v.IsSlot slot) :
    M.Advances ctx ds f { f with stack := .localVar v :: f.stack } σ w
      { m with stack := (wide, m.slots slot) :: m.stack } := by
  obtain ⟨x, hx⟩ := h.values slot
  refine Agrees.advances ⟨.cons h.stack ?_ ⟨?_, trivial⟩, h.slots, h.values, h.self⟩ rfl
  · rw [eval, hv.1, ← h.slots]
    rfl
  · rw [hx]
    exact shows_value

theorem advances_loadSelf (h : M.Agrees ctx f σ w m) (hstatic : ctx.isStatic = false) :
    M.Advances ctx ds f { f with stack := .thisRef :: f.stack } σ w
      { m with stack := (wide, m.slots 0) :: m.stack } := by
  obtain ⟨x, hx⟩ := h.values 0
  refine Agrees.advances ⟨.cons h.stack ?_ ⟨?_, trivial⟩, h.slots, h.values, h.self⟩ rfl
  · rw [eval, h.self hstatic]
  · rw [hx]
    exact shows_value

theorem slots_set (hv : v.IsSlot slot) (d : Datum V) :
    (σ.set v d).slots = fun n => if n = slot then d else σ.slots n := by
  funext n
  simp [Env.slots, Env.set, hv.1]

theorem Agrees.set {v slot} (h : M.Agrees ctx f σ w m) (hv : v.IsSlot slot) (hmay : ctx.mayWrite slot = true)
    (hfree : ∀ e ∈ f.stack, ∀ u, .localVar u ∈ e.nodes → u.place ≠ v.place) (x : V) :
    M.Agrees ctx f (σ.set v (.value x)) w { m with slots := fun n => if n = slot then .value x else m.slots n } where
  stack := h.stack.congr rfl fun e he y hy => by
    cases y with
    | localVar u => exact if_neg (hfree e he u hy)
    | dupLoad id => rfl
    | _ => trivial
  slots := by rw [slots_set hv, h.slots]
  values n := by
    by_cases hn : n = slot
    · exact ⟨x, if_pos hn⟩
    · simp only [if_neg hn]
      exact h.values n
  self hstatic := by
    have hslot : (0 : UInt16) ≠ slot := by
      rintro rfl
      simp [MethodContext.mayWrite, hstatic] at hmay
    exact (h.self hstatic).trans (if_neg hslot).symm

/-- Entries that read a variable are saved: those that leave the heap alone at any time, and all that
act in their order if none of them stays. -/
theorem Agrees.spill (ds : Duplicates) (h : M.Agrees ctx f σ w m) (ht : f.Tidy)
    (hspill : Sim.spillReaders ctx v f = .ok ((), f')) (hcount : f'.out.length < 65536) (ds' : Duplicates) :
    ∃ new, f'.out = f.out ++ new ∧
      (new.all (·.stmt.isCalm ds') = true → ∃ σ', (∀ w, M.execAll ds σ new w = ⟨σ', w, none⟩) ∧
        σ.Grows f.nextTemp.toNat f.duplicates.values.length σ' ∧ M.Agrees ctx f' σ' w m) ∧
      (f'.stack.all Expr.isCalm = true → ∃ σ', M.execAll ds σ new w = ⟨σ', m.world, none⟩ ∧
        σ.Grows f.nextTemp.toNat f.duplicates.values.length σ' ∧ ∀ w, M.Agrees ctx f' σ' w { m with world := w }) := by
  obtain ⟨es, f1, hspilled, rfl⟩ := Sim.spillReaders_inv hspill
  obtain ⟨new, hout, hquiet⟩ := hspilled.exec_quiet ds ht ht.stack hcount σ ds'
  refine ⟨new, hout, fun hnew => ?_, fun hcalm => ?_⟩
  · obtain ⟨σ', hexec, hgrows, hgives⟩ := hquiet hnew
    exact ⟨σ', hexec, hgrows, hgives _ _ _ h.stack, hgrows.slots.trans h.slots, h.values,
      fun hstatic => hgrows.self.trans (h.self hstatic)⟩
  · obtain ⟨new', σ', hout', hexec, hgrows, hgives⟩ := hspilled.exec_rest ds ht ht.stack hcount hcalm h.stack
    obtain rfl : new = new' := append_cancel_left (hout.symm.trans hout')
    exact ⟨σ', hexec, hgrows, fun w => ⟨hgives w, hgrows.slots.trans h.slots, h.values,
      fun hstatic => hgrows.self.trans (h.self hstatic)⟩⟩

variable {f1 : Frame}

theorem advances_store {value}
    (h : M.Agrees ctx f σ w m) (ht : f.Tidy) (hv : v.IsSlot slot) (hs : f.stack = value :: rest)
    (hspill : Sim.spillReaders ctx v { f with stack := rest } = .ok ((), f1)) (hcount : f1.out.length < 65536)
    (hmay : ctx.mayWrite slot = true) (huninit : value.isUninit = false)
    (horder : f.quietSince (f1.emitted ctx (.store v (value.retype v.ty)) i) = true ∨
      f1.stack.all Expr.isCalm = true) : ∃ m', m.apply M (.store slot) = some (m', none) ∧
      M.Advances ctx ds f (f1.emitted ctx (.store v (value.retype v.ty)) i) σ w m' := by
  have hknows := ht.stack
  rw [hs] at hknows
  simp only [mem_cons, forall_eq_or_imp] at hknows
  have hrest : Frame.Tidy { f with stack := rest } := ht.withStack hknows.2
  obtain ⟨stack, slots, world⟩ := m
  have hstack := h.stack
  simp only [hs] at hstack
  cases hstack with
  | @cons _ _ wide d below _ w1 _ hbelow heval hstands =>
      obtain ⟨x, rfl⟩ := hstands.shows.eq_value huninit
      have hbase : M.Agrees ctx { f with stack := rest } σ w ⟨below, slots, w1⟩ := ⟨hbelow, h.slots, h.values, h.self⟩
      have hfree : ∀ e ∈ f1.stack, ∀ u, .localVar u ∈ e.nodes → u.place ≠ v.place :=
        fun _ he _ hu => Sim.place_ne_of_spillReaders hspill hrest hv he hu
      obtain ⟨new, hout, hquiet, hcalm⟩ := hbase.spill ds hrest hspill hcount
        (f1.emitted ctx (.store v (value.retype v.ty)) i).duplicates
      have hgrown : (f1.emitted ctx (.store v (value.retype v.ty)) i).out = f.out ++ (new ++ _) :=
        (congrArg (· ++ _) hout).trans (append_assoc ..)
      refine ⟨_, rfl, ?_⟩
      rcases horder with horder | horder
      · rw [Frame.quietSince_append hgrown, all_append, Bool.and_eq_true] at horder
        simp only [all_cons, all_nil, Bool.and_true] at horder
        obtain ⟨σ', hexec, hgrows, hagrees⟩ := hquiet horder.1
        obtain ⟨d, hd⟩ := eval_calm horder.2
        have hvalue : M.eval σ' (value.retype v.ty) w1 = (.value x, world) := by
          rw [eval_retype, hgrows.eval hknows.1, heval]
        rw [hd] at hvalue
        cases hvalue
        refine ⟨_, σ'.set v (.value x), w, hgrown, ?_, ?_⟩
        · simp [execAll_append, hexec, execAll, exec, Stmt.inputs, Stmt.operands, evalList, hd, finish]
        · have hset := hagrees.set hv hmay hfree x
          exact ⟨hset.stack, hset.slots, hset.values, hset.self⟩
      · obtain ⟨σ', hexec, hgrows, hagrees⟩ := hcalm horder
        have hvalue : M.eval σ' (value.retype v.ty) w1 = (.value x, world) := by
          rw [eval_retype, hgrows.eval hknows.1, heval]
        refine ⟨_, σ'.set v (.value x), world, hgrown, ?_, ?_⟩
        · simp [execAll_append, hexec, execAll, exec, Stmt.inputs, Stmt.operands, evalList, hvalue, finish]
        · have hset := (hagrees world).set hv hmay hfree x
          exact ⟨hset.stack, hset.slots, hset.values, hset.self⟩

theorem advances_increment {amount} (h : M.Agrees ctx f σ w m) (ht : f.Tidy) (hv : v.IsSlot slot)
    (hspill : Sim.spillReaders ctx v f = .ok ((), f1)) (hcount : f1.out.length < 65536)
    (hmay : ctx.mayWrite slot = true)
    (horder : f.quietSince (f1.emitted ctx (.increment v amount) i) = true ∨ f1.stack.all Expr.isCalm = true) :
    ∃ m', m.apply M (.increment slot amount) = some (m', none) ∧
    M.Advances ctx ds f (f1.emitted ctx (.increment v amount) i) σ w m' := by
  have hfree : ∀ e ∈ f1.stack, ∀ u, .localVar u ∈ e.nodes → u.place ≠ v.place :=
    fun _ he _ hu => Sim.place_ne_of_spillReaders hspill ht hv he hu
  obtain ⟨new, hout, hquiet, hcalm⟩ := h.spill ds ht hspill hcount
    (f1.emitted ctx (.increment v amount) i).duplicates
  have hgrown : (f1.emitted ctx (.increment v amount) i).out = f.out ++ (new ++ _) :=
    (congrArg (· ++ _) hout).trans (append_assoc ..)
  -- either way the statements save what reads the slot and agree with the machine before it changes
  obtain ⟨σ', w', hexec, hagrees⟩ : ∃ σ' w', M.execAll ds σ new w = ⟨σ', w', none⟩ ∧ M.Agrees ctx f1 σ' w' m := by
    rcases horder with horder | horder
    · rw [Frame.quietSince_append hgrown, all_append, Bool.and_eq_true] at horder
      obtain ⟨σ', hexec, -, hagrees⟩ := hquiet horder.1
      exact ⟨σ', w, hexec w, hagrees⟩
    · obtain ⟨σ', hexec, -, hagrees⟩ := hcalm horder
      exact ⟨σ', m.world, hexec, hagrees m.world⟩
  have hset := hagrees.set hv hmay hfree (M.arith .add (m.slots slot) (.value (M.int amount)))
  have hvar : σ'.vars v.place = m.slots slot := by
    rw [hv.1, ← hagrees.slots]
    rfl
  refine ⟨_, rfl, _, _, w', hgrown, ?_, hset.stack, hset.slots, hset.values, hset.self⟩
  simp [execAll_append, hexec, execAll, exec, Stmt.inputs, Stmt.operands, evalList, finish, hvar]

/-! ## Stack instructions -/

/-- At most one of some entries acts, so that it does not matter which is evaluated first. -/
theorem Gives.evalList_of_countP_le {es} (h : M.Gives σ es w s w') (hone : es.countP (!·.isCalm) ≤ 1) :
    ∃ data, M.evalList σ es w = (data, w') := by
  induction h with
  | nil => exact ⟨[], rfl⟩
  | @cons e es wide d s w w1 w' hes he _ ih =>
      cases hcalm : e.isCalm with
      | true =>
          rw [countP_cons_of_neg (by simp [hcalm])] at hone
          obtain ⟨data, hdata⟩ := ih hone
          obtain ⟨x, hx⟩ := eval_calm hcalm
          rw [hx] at he
          cases he
          exact ⟨d :: data, by simp only [Model.evalList, hx, hdata]⟩
      | false =>
          rw [countP_cons_of_pos (by simp [hcalm])] at hone
          have hrest : es.all Expr.isCalm = true := by
            have hzero : es.countP (!·.isCalm) = 0 := by omega
            simpa [countP_eq_zero] using hzero
          obtain ⟨rfl, -⟩ := hes.calm hrest
          obtain ⟨data, hdata⟩ := evalList_calm (M := M) (σ := σ) hrest
          exact ⟨d :: data, by simp only [Model.evalList, he, hdata]⟩

variable {rest' : OperandStack V}

variable (h : M.Agrees ctx f σ w m)

include h

theorem advances_copy {top middle copies top' middle'} (ht : f.Tidy) (hf : f.stack = top ++ (middle ++ rest))
    (hm : m.stack = top' ++ (middle' ++ rest')) (htop : top'.length = top.length)
    (hmiddle : middle'.length = middle.length) (hcopy : Sim.Copied ctx i f top copies f1) (hds : f1.duplicates.Le ds)
    (horder : f.quietSince f1 = true ∨ (middle ++ rest).all Expr.isCalm = true) :
    M.Advances ctx ds f { f1 with stack := copies ++ (middle ++ (copies ++ rest)) } σ w
      { m with stack := top' ++ (middle' ++ (top' ++ rest')) } := by
  have hknows := ht.stack
  simp only [hf, mem_append, or_imp, forall_and] at hknows
  have hstack := h.stack
  rw [hf] at hstack
  have hcalm : top.all Expr.isCalm = true ∨ (middle ++ rest).all Expr.isCalm = true := by
    refine horder.imp_left fun hquiet => ?_
    obtain ⟨s1, s2, w1, -, -, htop⟩ := hstack.split
    obtain ⟨new, -, hout, -, -, -, hnew⟩ := hcopy.exec ht hknows.1 hds htop
    rw [Frame.quietSince_append hout] at hquiet
    exact hnew _ (.refl _) hquiet
  obtain ⟨s1, s2, w1, hs, hg, hrest⟩ := hstack.swap hcalm
  obtain ⟨rfl, rfl⟩ := append_inj (hm.symm.trans hs) (htop.trans hg.length_eq.symm)
  obtain ⟨new, σ', hout, hexec, hgrows, hcopies, -⟩ := hcopy.exec ht hknows.1 hds hg
  have hbelow : M.Gives σ' (middle ++ rest) w1 (middle' ++ rest') m.world :=
    hgrows.gives (fun e he => (mem_append.mp he).elim (hknows.2.1 e) (hknows.2.2 e)) hrest
  obtain ⟨s1, s2, w2, hs, hg2, hg1⟩ := hbelow.split
  obtain ⟨rfl, rfl⟩ := append_inj hs (hmiddle.trans hg1.length_eq.symm)
  refine ⟨new, σ', w1, hout, hexec, ?_, hgrows.slots.trans h.slots, h.values,
    fun hstatic => hgrows.self.trans (h.self hstatic)⟩
  exact .append (.append (.append hg2 (hcopies _)) hg1) (hcopies _)

theorem advances_drop {top top'} (hf : f.stack = top ++ rest) (hm : m.stack = top' ++ rest')
    (htop : top'.length = top.length) (hmay : Sim.mayDrop top = true)
    (hdrop : Sim.Dropped ctx i { f with stack := rest } top f1)
    (horder : f.quietSince f1 = true ∨ rest.all Expr.isCalm = true) :
    M.Advances ctx ds f f1 σ w { m with stack := rest' } := by
  simp only [Sim.mayDrop, Bool.and_eq_true, all_eq_true, Bool.or_eq_true, decide_eq_true_eq] at hmay
  have hstack := h.stack
  rw [hf] at hstack
  have hcalm : top.all Expr.isCalm = true ∨ rest.all Expr.isCalm = true := by
    refine horder.imp_left fun hquiet => ?_
    obtain ⟨new, hout, -, hnew⟩ := hdrop.exec (M := M) ds (σ := σ) (w := w) hmay.1 rfl
    rw [Frame.quietSince_append (f := f) hout] at hquiet
    exact hnew _ hquiet
  obtain ⟨s1, s2, w1, hs, hg, hrest⟩ := hstack.swap hcalm
  obtain ⟨rfl, rfl⟩ := append_inj (hm.symm.trans hs) (htop.trans hg.length_eq.symm)
  obtain ⟨data, heval⟩ := hg.evalList_of_countP_le hmay.2
  obtain ⟨new, hout, hexec, -⟩ := hdrop.exec ds hmay.1 heval
  refine ⟨new, σ, w1, hout, hexec, ?_, h.slots, h.values, h.self⟩
  rw [hdrop.stack_eq]
  exact hrest

theorem advances_swap {a b a' b'} (hf : f.stack = a :: b :: rest) (hm : m.stack = a' :: b' :: rest')
    (hcalm : a.isCalm = true ∨ b.isCalm = true) :
    M.Advances ctx ds f { f with stack := b :: a :: rest } σ w { m with stack := b' :: a' :: rest' } := by
  have hstack : M.Gives σ ([a, b] ++ rest) w (a' :: b' :: rest') m.world := by
    have := h.stack
    rwa [hf, hm] at this
  obtain ⟨s1, s2, w1, hs, hrest, htop⟩ := hstack.split
  have hpair : M.Gives σ ([a] ++ [b]) w1 s1 m.world := htop
  obtain ⟨sa, sb, w2, rfl, ha, hb⟩ := hpair.swap (by simpa using hcalm)
  refine Agrees.advances ⟨?_, h.slots, h.values, h.self⟩ rfl
  match sa, sb, ha.length_eq, hb.length_eq with
  | [_], [_], _, _ =>
      cases hs
      exact .append (.append hrest ha) hb

end Model

end JvmLift
