import JvmLift.Proofs.Block.Progress
import JvmLift.Proofs.Block.Settling

/-!
# Duplicates that are read are computed

Whatever an instruction builds reads only what its operands read, so every read of a duplicate is backed by a
statement that computes it. No statement that an instruction emits writes a variable for stack entries.
-/
namespace JvmLift

open List

/-! ## What expressions read -/

variable {e : Expr} {held : List Expr}

namespace Expr

/-- Whatever duplicate the expression reads is read by one of the others. -/
def Reuses (e : Expr) (held : List Expr) : Prop :=
  ∀ id, .dupLoad id ∈ e.nodes → ∃ h ∈ held, .dupLoad id ∈ h.nodes

theorem reuses_of_mem (h : e ∈ held) : e.Reuses held := fun _ hid => ⟨e, h, hid⟩

variable {e' : Expr}

theorem reuses_singleton : e.Reuses [e'] ↔ ∀ id, .dupLoad id ∈ e.nodes → .dupLoad id ∈ e'.nodes := by
  simp [Reuses]

theorem Reuses.mono {held'} (h : e.Reuses held) (hsub : held ⊆ held') : e.Reuses held' :=
  fun id hid => (h id hid).imp fun _ hx => ⟨hsub hx.1, hx.2⟩

theorem Reuses.trans (h : e.Reuses [e']) (h' : e'.Reuses held) : e.Reuses held :=
  fun id hid => h' id (reuses_singleton.mp h id hid)

theorem reuses_zipWith {g : Expr → ErasedType → Expr} (h : ∀ e t, (g e t).Reuses [e]) {args : List Expr}
    {params} : ∀ e ∈ zipWith g args params, e.Reuses args := by
  intro e he
  rw [← map_uncurry_zip_eq_zipWith] at he
  obtain ⟨⟨arg, param⟩, hmem, rfl⟩ := mem_map.mp he
  exact (h arg param).trans (reuses_of_mem (of_mem_zip hmem).1)

theorem reuses_of_sources (h : e.sources = e'.sources) : e.Reuses [e'] := by
  rw [reuses_singleton]
  intro id hid
  have hsource : .dupLoad id ∈ e'.sources := h ▸ mem_filter.mpr ⟨hid, rfl⟩
  exact (mem_filter.mp hsource).1

theorem reuses_of_operands (hown : e.isSource = false) (h : ∀ x ∈ e.operands, x.Reuses held) : e.Reuses held := by
  intro id hid
  rcases mem_nodes.mp hid with rfl | ⟨x, hx, hid⟩
  · cases hown
  · exact h x hx id hid

theorem reuses_retype (e : Expr) (t : ErasedType) : (e.retype t).Reuses [e] := reuses_of_sources (sources_retype e t)

end Expr

namespace Duplicates

variable {ds ds' : Duplicates} {e : Expr}

def Holds (ds : Duplicates) (e : Expr) : Prop := ∀ id, .dupLoad id ∈ e.nodes → id < ds.values.length

theorem Holds.mono (h : ds.Holds e) (hle : ds.Le ds') : ds'.Holds e :=
  fun id hid => Nat.lt_of_lt_of_le (h id hid) hle.length_le

theorem Holds.reuse (h : ∀ x ∈ held, ds.Holds x) (he : e.Reuses held) : ds.Holds e := by
  intro id hid
  obtain ⟨x, hx, hid⟩ := he id hid
  exact h x hx id hid

end Duplicates

/-! ## Frames -/

namespace Frame

abbrev Holds (f : Frame) (e : Expr) : Prop := f.duplicates.Holds e

/-- Entries and statements read duplicates that exist, a value reads earlier ones, and the statements
compute the duplicates from `base` on. -/
structure Backed (base : Nat) (f : Frame) : Prop where
  le : base ≤ f.duplicates.values.length
  stack : ∀ e ∈ f.stack, f.Holds e
  out : ∀ s ∈ f.out, ∀ e ∈ s.stmt.operands, f.Holds e
  nested : ∀ id value, f.duplicates.get? id = some value → ∀ n, .dupLoad n ∈ value.nodes → n < id
  computed : ∀ id, id ∈ f.out.filterMap (·.stmt.copyId?) ↔ base ≤ id ∧ id < f.duplicates.values.length

variable {base : Nat} {f f' : Frame}

theorem Backed.withStack (h : f.Backed base) {stack} (hs : ∀ e ∈ stack, f.Holds e) : Backed base { f with stack } :=
  ⟨h.le, hs, h.out, h.nested, h.computed⟩

theorem Backed.emitted (h : f.Backed base) {s} (hds : f'.duplicates = f.duplicates)
    (hstack : f'.stack = f.stack) (hout : f'.out = f.out ++ [s]) (hs : ∀ e ∈ s.stmt.operands, f.Holds e)
    (hcopy : s.stmt.copyId? = none) : f'.Backed base := by
  have hholds : ∀ e, f'.Holds e ↔ f.Holds e := fun e => by rw [Holds, hds]
  refine ⟨hds ▸ h.le, ?_, ?_, hds ▸ h.nested, ?_⟩
  · intro e he
    rw [hholds]
    exact h.stack e (hstack ▸ he)
  · intro s' hs' e he
    rw [hout, mem_append, mem_singleton] at hs'
    rw [hholds]
    rcases hs' with hs' | rfl
    · exact h.out s' hs' e he
    · exact hs e he
  · intro id
    rw [hout, hds, filterMap_append, filterMap_cons, hcopy, filterMap_nil, append_nil]
    exact h.computed id

theorem Backed.copied (h : f.Backed base) {value s}
    (hds : f'.duplicates = ⟨f.duplicates.values ++ [value]⟩) (hstack : f'.stack = f.stack)
    (hout : f'.out = f.out ++ [s]) (hv : f.Holds value) (hs : s.stmt = .dupStore f.duplicates.values.length) :
    f'.Backed base := by
  have hlen : f'.duplicates.values.length = f.duplicates.values.length + 1 := by simp [hds]
  have hholds : ∀ e, f.Holds e → f'.Holds e := fun e he id hid => by
    have := he id hid
    omega
  refine ⟨?_, ?_, ?_, ?_, ?_⟩
  · have := h.le
    omega
  · intro e he
    exact hholds e (h.stack e (hstack ▸ he))
  · intro s' hs' e he
    rw [hout, mem_append, mem_singleton] at hs'
    rcases hs' with hs' | rfl
    · exact hholds e (h.out s' hs' e he)
    · rw [hs] at he
      cases he
  · intro id v hid n hn
    rw [hds, Duplicates.get?, getElem?_append] at hid
    split at hid
    · exact h.nested id v hid n hn
    · rw [getElem?_singleton] at hid
      split at hid
      · cases hid
        have := hv n hn
        omega
      · cases hid
  · intro id
    rw [hout, filterMap_append, mem_append, h.computed id, filterMap_cons, hs]
    have := h.le
    simp only [Stmt.copyId?, filterMap_nil, mem_singleton]
    omega

end Frame

def Stmt.writesStack : Stmt → Bool
  | .store v _ | .increment v _ => v.origin == .stack
  | _ => false

theorem Locals.origin_var (ls : Locals) (slot : UInt16) (kind : ValueKind) (pc : Nat) (isStore : Bool) :
    (ls.var slot kind pc isStore).origin = .slot := by
  unfold Locals.var
  split <;> rfl

/-! ## Parts of a step -/

/-- A step keeps a frame backed. What it gives reads duplicates that exist, as do the expressions in
`held`. -/
def Sim.Backs {α : Type} (held : List Expr) (c : Sim α) (given : α → List Expr) : Prop :=
  ∀ ⦃base f a f'⦄, f.Backed base → (∀ e ∈ held, f.Holds e) → c f = .ok (a, f') →
    f'.Backed base ∧ f.duplicates.Le f'.duplicates ∧ ∀ e ∈ given a, f'.Holds e

def Sim.Spares {α : Type} (c : Sim α) : Prop :=
  ∀ ⦃f a f'⦄, c f = .ok (a, f') → ∀ s ∈ f'.out, s ∈ f.out ∨ s.stmt.writesStack = false

/-- What every part of a step does to the statements and to the duplicates. -/
structure Sim.Steady {α : Type} (held : List Expr) (c : Sim α) (given : α → List Expr) : Prop where
  spares : Spares c
  backs : Backs held c given

namespace Sim

variable {α β : Type} {held : List Expr} {i : Instruction} {ctx : MethodContext} {es : List Expr}

section

variable {c : Sim α} {given : α → List Expr}

theorem Spares.ofOut (h : ∀ f a f', c f = .ok (a, f') → f'.out = f.out) : Spares c :=
  fun f a f' hc _ hs => .inl (h f a f' hc ▸ hs)

theorem Spares.ofEmit (h : ∀ f a f', c f = .ok (a, f') → ∃ s, f'.out = f.out ++ [s] ∧ s.stmt.writesStack = false) :
    Spares c := by
  intro f a f' hc s hs
  obtain ⟨s', hout, hs'⟩ := h f a f' hc
  rw [hout, mem_append, mem_singleton] at hs
  rcases hs with hs | rfl
  · exact .inl hs
  · exact .inr hs'

namespace Steady

theorem bind {k : α → Sim β} {given'} (h : Steady held c given)
    (hk : ∀ a, Steady (given a ++ held) (k a) given') : Steady held (c >>= k) given' := by
  refine ⟨fun f b f' hc s hs => ?_, fun base f b f' hf hheld hc => ?_⟩
  all_goals obtain ⟨a, f1, hc, hk'⟩ := of_bind_ok hc
  · exact ((hk a).spares hk' s hs).elim (h.spares hc s) .inr
  obtain ⟨hf1, hle1, hgiven⟩ := h.backs hf hheld hc
  have hheld1 : ∀ e ∈ given a ++ held, f1.Holds e := by
    intro e he
    rcases mem_append.mp he with he | he
    · exact hgiven e he
    · exact (hheld e he).mono hle1
  obtain ⟨hf2, hle2, hgiven'⟩ := (hk a).backs hf1 hheld1 hk'
  exact ⟨hf2, hle1.trans hle2, hgiven'⟩

theorem pure {a} (h : ∀ e ∈ given a, e.Reuses held) : Steady held (Pure.pure a) given := by
  refine ⟨.ofOut fun _ _ _ hc => by cases hc; rfl, fun base f a' f' hf hheld hc => ?_⟩
  cases hc
  exact ⟨hf, .refl _, fun e he => .reuse hheld (h e he)⟩

theorem get {k} (h : ∀ f, Steady held (k f) given) : Steady held (get >>= k) given :=
  ⟨fun f _ _ hc => (h f).spares hc, fun _ f _ _ hf hheld hc => (h f).backs hf hheld hc⟩

theorem getStack {k} (h : ∀ f, Steady (f.stack ++ held) (k f) given) : Steady held (MonadState.get >>= k) given := by
  refine ⟨fun f _ _ hc => (h f).spares hc, fun base f a f' hf hheld hc => ?_⟩
  refine (h f).backs hf (fun e he => ?_) hc
  rcases mem_append.mp he with he | he
  · exact hf.stack e he
  · exact hheld e he

theorem setStack (h : ∀ e ∈ es, e.Reuses held) :
    Steady held (modify fun f => { f with stack := es } : Sim Unit) fun _ => [] := by
  refine ⟨.ofOut fun _ _ _ hc => by cases hc; rfl, fun base f a f' hf hheld hc => ?_⟩
  cases hc
  exact ⟨hf.withStack fun e he => .reuse hheld (h e he), .refl _, nofun⟩

theorem throw (fault : LiftFault) : Steady held (throw fault : Sim α) given :=
  ⟨fun _ _ _ hc => (by cases hc), fun _ _ _ _ _ _ hc => (by cases hc)⟩

theorem throwBind (fault : LiftFault) {k} : Steady held ((MonadExcept.throw fault : Sim β) >>= k) given :=
  ⟨fun _ _ _ hc => (by cases hc), fun _ _ _ _ _ _ hc => (by cases hc)⟩

theorem ite {p} [Decidable p] {d} (hc : Steady held c given) (hd : Steady held d given) :
    Steady held (if p then c else d) given := by
  split
  · exact hc
  · exact hd

theorem ofUnchanged (h : ∀ f a f', c f = .ok (a, f') → f' = f) : Steady held c fun _ => [] := by
  refine ⟨.ofOut fun f a f' hc => congrArg Frame.out (h f a f' hc), fun base f a f' hf _ hc => ?_⟩
  rw [h f a f' hc]
  exact ⟨hf, .refl _, nofun⟩

theorem stay {c} (h : Steady held c fun _ => []) : Steady held (stay c) fun exit => (exit.bind Exit.operand?).toList :=
  h.bind fun _ => .pure nofun

end Steady

end

theorem steady_pop (i : Instruction) : Steady held (pop i) fun e => [e] := by
  refine ⟨.ofOut fun _ _ _ hc => ?_, fun base f e f' hf _ hc => ?_⟩
  all_goals obtain ⟨rest, hs, rfl⟩ := pop_inv hc
  · rfl
  have hstack := hf.stack
  rw [hs, forall_mem_cons] at hstack
  exact ⟨hf.withStack hstack.2, .refl _, forall_mem_singleton.mpr hstack.1⟩

theorem steady_popN (n : Nat) (i : Instruction) : Steady held (popN n i) id := by
  refine ⟨.ofOut fun _ _ _ hc => ?_, fun base f es f' hf _ hc => ?_⟩
  all_goals obtain ⟨rest, hs, -, rfl⟩ := popN_inv hc
  · rfl
  have hstack := hf.stack
  rw [hs, forall_mem_append] at hstack
  exact ⟨hf.withStack hstack.2, .refl _, fun e he => hstack.1 e (mem_reverse.mpr he)⟩

theorem steady_popSingle (i : Instruction) (operation : String) : Steady held (popSingle i operation) fun e => [e] := by
  refine (steady_pop i).bind fun e => .get fun f => ?_
  split
  · exact .throwBind _
  · exact .pure fun x hx => Expr.reuses_of_mem (by simp_all)

theorem steady_pushAll (h : ∀ e ∈ es, e.Reuses held) : Steady held (pushAll es) fun _ => [] := by
  refine ⟨.ofOut fun _ _ _ hc => by cases hc; rfl, fun base f a f' hf hheld hc => ?_⟩
  cases hc
  refine ⟨hf.withStack fun e he => ?_, .refl _, nofun⟩
  rcases mem_append.mp he with he | he
  · exact .reuse hheld (h e he)
  · exact hf.stack e he

theorem steady_push (h : e.Reuses held) : Steady held (push e) fun _ => [] :=
  steady_pushAll (forall_mem_singleton.mpr h)

theorem steady_emit {s} (h : ∀ e ∈ s.operands, e.Reuses held) (hcopy : s.copyId? = none)
    (hown : s.writesStack = false) : Steady held (emit ctx s i) fun _ => [] := by
  refine ⟨.ofEmit fun _ _ _ hc => ?_, fun base f a f' hf hheld hc => ?_⟩
  all_goals cases hc
  · exact ⟨_, rfl, hown⟩
  exact ⟨hf.emitted rfl rfl rfl (fun e he => .reuse hheld (h e he)) hcopy, .refl _, nofun⟩

theorem steady_discard (h : e ∈ held) : Steady held (discard ctx e i) fun _ => [] :=
  .ite (steady_emit (forall_mem_singleton.mpr (Expr.reuses_of_mem h)) rfl rfl) (.pure nofun)

theorem steady_duplicate {value} (h : value ∈ held) : Steady held (duplicate ctx value i) fun c => [c] := by
  unfold duplicate
  lift_lets
  intro isShared
  cases isShared with
  | true => exact .pure fun e he => Expr.reuses_of_mem (by simp_all)
  | false =>
      refine ⟨.ofEmit fun _ _ _ hc => ?_, fun base f p f' hf hheld hc => ?_⟩
      all_goals cases hc
      · exact ⟨_, rfl, rfl⟩
      have hle : f.duplicates.Le ⟨f.duplicates.values ++ [value]⟩ := prefix_append ..
      refine ⟨hf.copied rfl rfl rfl (hheld value h) rfl, hle, fun e he id hid => ?_⟩
      have hnew : e = .dupLoad f.duplicates.values.length := by simpa using he
      obtain rfl : id = f.duplicates.values.length := by simpa [hnew, Expr.nodes] using hid
      simp

variable {v : LocalVar}

theorem steady_spillEntry (h : e ∈ held) : Steady held (spillEntry ctx v e) fun e' => [e'] := by
  refine ⟨fun f e' f' hc s hs => ?_, fun base f e' f' hf hheld hc => ?_⟩
  all_goals
    obtain ⟨_, _, hget, hc⟩ := of_bind_ok hc
    cases hget
    split at hc
    all_goals cases hc
  · refine (mem_append.mp hs).imp_right fun hs => ?_
    rw [mem_singleton.mp hs]
    rfl
  · exact .inl hs
  · refine ⟨hf.emitted rfl rfl rfl (forall_mem_singleton.mpr (hheld e h)) rfl, .refl _, ?_⟩
    simp [Duplicates.Holds, Expr.nodes]
  · exact ⟨hf, .refl _, forall_mem_singleton.mpr (hheld e h)⟩

theorem steady_mapM_spillEntry (h : ∀ e ∈ es, e ∈ held) : Steady held (es.mapM (spillEntry ctx v)) id := by
  induction es generalizing held with
  | nil => exact .pure nofun
  | cons e es ih =>
      rw [forall_mem_cons] at h
      rw [mapM_cons]
      refine (steady_spillEntry h.1).bind fun e' => ?_
      refine (ih fun x hx => mem_append_right _ (h.2 x hx)).bind fun es' => ?_
      refine .pure fun x hx => Expr.reuses_of_mem ?_
      rcases mem_cons.mp hx with rfl | hx
      · simp
      · simp [show x ∈ es' from hx]

theorem steady_spillReaders : Steady held (spillReaders ctx v) fun _ => [] := by
  refine .getStack fun f => ?_
  refine (steady_mapM_spillEntry fun e he => ?_).bind fun es => .setStack fun e he => Expr.reuses_of_mem ?_
  · simp_all
  · simp_all

/-! ### Stack instructions -/

theorem steady_popSlots (operation : String) (slots : Nat) : Steady held (popSlots i operation slots) id := by
  induction slots using Nat.twoStepInduction generalizing held with
  | zero => exact .pure nofun
  | one => exact (steady_popSingle i operation).bind fun e => .pure fun x hx => Expr.reuses_of_mem (by simp_all)
  | more slots ih ih' =>
      refine (steady_pop i).bind fun e => .get fun f => (Steady.ite ih ih').bind fun es => ?_
      exact .pure fun x hx => Expr.reuses_of_mem (by grind)

theorem steady_discardAll (h : ∀ e ∈ es, e ∈ held) : Steady held (es.forM (discard ctx · i)) fun _ => [] := by
  induction es with
  | nil => exact .pure nofun
  | cons e es ih =>
      rw [forall_mem_cons] at h
      exact (steady_discard h.1).bind fun _ => ih h.2

theorem steady_drop (operation : String) (slots : Nat) : Steady held (drop ctx operation slots i) fun _ => [] :=
  (steady_popSlots operation slots).bind fun _ => steady_discardAll fun _ => mem_append_left _

theorem steady_pushHeld (h : ∀ e ∈ es, e ∈ held) : Steady held (pushAll es) fun _ => [] :=
  steady_pushAll fun e he => Expr.reuses_of_mem (h e he)

theorem steady_duplicateAll (h : ∀ e ∈ es, e ∈ held) : Steady held (duplicateAll ctx i es) id := by
  induction es with
  | nil => exact .pure nofun
  | cons e es ih =>
      rw [forall_mem_cons] at h
      rw [duplicateAll_cons]
      refine (ih h.2).bind fun copies => (steady_duplicate (mem_append_right _ h.1)).bind fun c => ?_
      exact .pure fun x hx => Expr.reuses_of_mem (by grind)

theorem steady_dup (operation : String) (copied under : Nat) :
    Steady held (dup ctx operation copied under i) fun _ => [] := by
  refine (steady_popSlots operation copied).bind fun top => (steady_popSlots operation under).bind fun middle => ?_
  exact (steady_duplicateAll (by simp_all)).bind fun copies => steady_pushHeld (by grind)

theorem steady_swap : Steady held (swap i) fun _ => [] := by
  refine (steady_popSingle i "swap").bind fun v1 => (steady_popSingle i "swap").bind fun v2 => ?_
  exact steady_pushHeld (by simp)

/-! ### Locals, constants, arrays and fields -/

theorem steady_ofFormat (x : Except FormatFault α) : Steady held (ofFormat x) fun _ => [] :=
  .ofUnchanged fun _ _ _ h => (ofFormat_inv h).2

theorem steady_fieldType (d : String) : Steady held (fieldType d i) fun _ => [] :=
  .ofUnchanged fun _ _ _ h => (fieldType_inv h).2

theorem steady_methodType (d : String) : Steady held (methodType d i) fun _ => [] :=
  .ofUnchanged fun _ _ _ h => (methodType_inv h).2

theorem steady_operandType (index : UInt16) : Steady held (operandType ctx index) fun _ => [] :=
  .ofUnchanged fun _ _ _ h => (operandType_inv h).choose_spec.2.2

theorem steady_constant (index : UInt16) : Steady held (ofFormat (constantValue ctx.pool index) >>= push) fun _ => [] := by
  have hpush {e : Expr} (h : (constantValue ctx.pool index).toOption = some e) : Steady held (push e) fun _ => [] :=
    steady_push fun id hid => absurd hid (dupLoad_not_mem_constant h id)
  refine ⟨fun f a f' hc => ?_, fun base f a f' hf hheld hc => ?_⟩
  all_goals
    obtain ⟨e, f1, he, hc'⟩ := of_bind_ok hc
    obtain ⟨hvalue, rfl⟩ := ofFormat_inv he
  · exact (hpush hvalue).spares hc'
  · exact (hpush hvalue).backs hf hheld hc'

variable {slot : UInt16}

theorem steady_load {kind} : Steady held (load ctx kind slot i) fun _ => [] :=
  .ite (steady_push (by simp [Expr.Reuses, Expr.nodes])) (steady_push (by simp [Expr.Reuses, Expr.nodes]))

theorem steady_store {kind} : Steady held (store ctx kind slot i) fun _ => [] := by
  refine (steady_pop i).bind fun value => ?_
  split
  · refine ⟨.ofOut fun _ _ _ hc => by cases hc; rfl, fun base f a f' hf _ hc => ?_⟩
    cases hc
    exact ⟨⟨hf.le, hf.stack, hf.out, hf.nested, hf.computed⟩, .refl _, nofun⟩
  · refine steady_spillReaders.bind fun _ => steady_emit (forall_mem_singleton.mpr ?_) rfl
      (by simp [Stmt.writesStack, Locals.origin_var])
    exact (Expr.reuses_retype value _).mono (by simp)

theorem steady_increment {amount} : Steady held (increment ctx slot amount i) fun _ => [] :=
  steady_spillReaders.bind fun _ => steady_emit nofun rfl (by simp [Stmt.writesStack, Locals.origin_var])

theorem steady_unary {build} (h : ∀ e, (build e).Reuses [e]) : Steady held (unary i build) fun _ => [] :=
  (steady_pop i).bind fun e => steady_push ((h e).mono (by simp))

variable {build : Expr → Expr → Expr}

theorem steady_binary (h : ∀ l r, (build l r).Reuses [r, l]) : Steady held (binary i build) fun _ => [] :=
  (steady_pop i).bind fun r => (steady_pop i).bind fun l => steady_push ((h l r).mono (by simp))

theorem steady_arrayLoad {kind} : Steady held (arrayLoad kind i) fun _ => [] :=
  steady_binary fun l r => by simp [Expr.Reuses, Expr.nodes, or_comm]

theorem steady_arrayStore {kind} : Steady held (arrayStore ctx kind i) fun _ => [] := by
  refine (steady_pop i).bind fun value => (steady_pop i).bind fun index => (steady_pop i).bind fun array => ?_
  refine steady_emit ?_ rfl rfl
  simp only [Stmt.operands, forall_mem_cons]
  exact ⟨Expr.reuses_of_mem (by simp), Expr.reuses_of_mem (by simp),
    (Expr.reuses_retype value _).mono (by simp), by simp⟩

theorem steady_object : Steady held (some <$> pop i) Option.toList := by
  exact (steady_pop i).bind fun e => .pure fun x hx => Expr.reuses_of_mem (by simp_all)

variable {index : UInt16}

theorem steady_getField {hasObject} : Steady held (getField ctx index hasObject i) fun _ => [] := by
  refine (steady_ofFormat _).bind fun m => (steady_fieldType _).bind fun t => ?_
  have hpush : ∀ object : Option Expr, (Expr.fieldGet m.className m.name t object).Reuses object.toList := by
    intro object
    cases object <;> simp [Expr.Reuses, Expr.nodes, Expr.nodesOption]
  cases hasObject with
  | true => exact steady_object.bind fun object => steady_push ((hpush object).mono (by simp))
  | false => exact steady_push ((hpush none).mono (by simp))

theorem steady_putField {hasObject} : Steady held (putField ctx index hasObject i) fun _ => [] := by
  refine (steady_ofFormat _).bind fun m => (steady_fieldType _).bind fun t => (steady_pop i).bind fun value => ?_
  cases hasObject with
  | true =>
      refine steady_object.bind fun object => steady_emit (fun e he => ?_) rfl rfl
      rcases mem_append.mp he with he | he
      · exact Expr.reuses_of_mem (by simp_all)
      · rw [mem_singleton.mp he]
        exact (Expr.reuses_retype value _).mono (by simp)
  | false =>
      refine steady_emit (forall_mem_singleton.mpr ?_) rfl rfl
      exact (Expr.reuses_retype value _).mono (by simp)

/-! ### Calls -/

theorem steady_popArgs (params : List ErasedType) (i : Instruction) : Steady held (popArgs params i) id := by
  refine (steady_popN _ i).bind fun args => .pure fun e he => ?_
  exact (Expr.reuses_zipWith Expr.reuses_retype e he).mono (by simp)

theorem steady_takeCall : Steady held (takeCall ctx index i) Call.args := by
  refine (steady_ofFormat _).bind fun m => (steady_methodType _).bind fun t => ?_
  exact (steady_popArgs t.params i).bind fun args => .pure fun e he => Expr.reuses_of_mem (by simp_all)

theorem sources_overloadArg (r : Resolver) (arg : Expr) (param : ErasedType) :
    (overloadArg r arg param).sources = arg.sources := by
  unfold overloadArg
  split
  · rfl
  · split <;> rfl
  · rfl

theorem reuses_castArgs {c : Call} : ∀ e ∈ c.castArgs ctx, e.Reuses c.args := by
  intro e he
  unfold Call.castArgs at he
  split at he
  · exact Expr.reuses_zipWith (fun e t => Expr.reuses_of_sources (sources_overloadArg ctx.resolver e t)) e he
  · exact Expr.reuses_of_mem he

theorem steady_finishCall {call t} (h : call.Reuses held) : Steady held (finishCall ctx call t i) fun _ => [] :=
  .ite (steady_emit (forall_mem_singleton.mpr h) rfl rfl) (steady_push h)

theorem steady_construct {created alloc} (h : created.Reuses held) :
    Steady held (construct ctx created alloc i) fun _ => [] := by
  have hemit : Steady held (emit ctx (.expr created) i) fun _ => [] :=
    steady_emit (by simpa [Stmt.operands] using h) rfl rfl
  refine ⟨fun f a f' hc => ?_, fun base f a f' hf hheld hc => ?_⟩
  all_goals
    obtain ⟨_, _, hget, hc⟩ := of_bind_ok hc
    cases hget
    split at hc
  · cases hc
    exact fun s hs => .inl hs
  · exact hemit.spares hc
  · cases hc
    refine ⟨hf.withStack fun e he => ?_, .refl _, by simp⟩
    obtain ⟨e0, he0, rfl⟩ := mem_map.mp he
    split
    · exact .reuse hheld h
    · exact hf.stack e0 he0
  · exact hemit.backs hf hheld hc

theorem steady_called {kind} {m : MemberRef} {t} {receiver : Option Expr} {args : List Expr}
    (hreceiver : ∀ e ∈ receiver, e ∈ held) (hargs : ∀ e ∈ args, e.Reuses held) : Steady held
      (if m.name = "<init>" then match receiver with
        | some (.uninitNew className alloc) => construct ctx (.new className m.descriptor args) alloc i
        | _ => finishCall ctx (.call kind m.className m.name m.descriptor receiver args) t i
      else finishCall ctx (.call kind m.className m.name m.descriptor receiver args) t i) fun _ => [] := by
  have hcall : Steady held (finishCall ctx (.call kind m.className m.name m.descriptor receiver args) t i) fun _ => [] := by
    refine steady_finishCall (Expr.reuses_of_operands rfl (forall_mem_append.mpr ⟨fun e he => ?_, hargs⟩))
    exact Expr.reuses_of_mem (hreceiver e (Option.mem_toList.mp he))
  refine .ite ?_ hcall
  split
  · exact steady_construct (Expr.reuses_of_operands rfl hargs)
  · exact hcall

theorem steady_invoke {kind : InvokeKind} : Steady held (invoke ctx kind index i) fun _ => [] := by
  refine steady_takeCall.bind fun c => ?_
  have hargs : ∀ more : List Expr, ∀ e ∈ c.castArgs ctx, e.Reuses (more ++ (c.args ++ held)) :=
    fun more e he => (reuses_castArgs e he).mono (by simp)
  refine .ite ?_ ?_
  · exact (Steady.pure nofun : Steady _ (pure none) Option.toList).bind fun receiver => steady_called (by simp_all) (hargs _)
  · exact steady_object.bind fun receiver => steady_called (by simp_all) (hargs _)

theorem steady_invokeDynamic : Steady held (invokeDynamic ctx index i) fun _ => [] := by
  refine (steady_ofFormat _).bind fun site => (steady_methodType _).bind fun t => ?_
  refine (steady_popArgs t.params i).bind fun args => steady_finishCall (Expr.reuses_of_operands rfl fun e he => ?_)
  exact Expr.reuses_of_mem (mem_append_left _ he)

/-! ### One instruction -/

theorem steady_popEmit {make : Expr → Stmt} {a : α} {given}
    (h : ∀ e, ∀ x ∈ (make e).operands, x.Reuses [e]) (hcopy : ∀ e, (make e).copyId? = none)
    (hown : ∀ e, (make e).writesStack = false) (hgiven : given a = []) : Steady held (do
      let e ← pop i
      emit ctx (make e) i
      return a) given := by
  refine (steady_pop i).bind fun e => (steady_emit (fun x hx => ?_) (hcopy e) (hown e)).bind fun _ => ?_
  · exact (h e x hx).mono (by simp)
  · exact .pure (by simp [hgiven])

theorem steady_ofClass {c} {given : α → List Expr} {make : α → ErasedType → Expr}
    (hc : Steady held c given) (hmake : ∀ a t, (make a t).Reuses (given a)) : Steady held (do
      let a ← c
      push (make a (← operandType ctx index))) fun _ => [] :=
  hc.bind fun a => (steady_operandType index).bind fun t => steady_push ((hmake a t).mono (by simp))

theorem steady_branch {build : Expr → Exit} (h : ∀ e, ∀ x ∈ (build e).operand?, x.Reuses [e]) :
    Steady held (do return some (build (← pop i))) fun exit => (exit.bind Exit.operand?).toList :=
  (steady_pop i).bind fun e => .pure fun x hx => (h e x (by simpa using hx)).mono (by simp)

theorem reuses_intCondition (op : CmpOp) (l r : Expr) : (intCondition op l r).Reuses [r, l] := by
  refine Expr.reuses_of_operands rfl (forall_mem_cons.mpr ⟨?_, forall_mem_singleton.mpr ?_⟩)
  · exact (Expr.reuses_retype l _).mono (by simp)
  · exact (Expr.reuses_retype r _).mono (by simp)

theorem steady_compare {build : Expr → Expr → Expr} {target} (h : ∀ l r, (build l r).Reuses [r, l]) : Steady held (do
      let right ← pop i
      let left ← pop i
      return branch i (build left right) target) fun exit => (exit.bind Exit.operand?).toList := by
  refine (steady_pop i).bind fun r => (steady_pop i).bind fun l => .pure fun x hx => ?_
  obtain rfl : x = build l r := by simpa [branch, Exit.operand?] using hx
  exact (h l r).mono (by simp)

theorem steady_step (ctx : MethodContext) (i : Instruction) :
    Steady [] (step ctx i) fun exit => (exit.bind Exit.operand?).toList := by
  have hpush : ∀ {e : Expr}, e.nodes = [e] → (∀ id, e ≠ .dupLoad id) → Steady [] (push e) fun _ => [] := by
    intro e hnodes hne
    refine steady_push fun id hid => ?_
    rw [hnodes, mem_singleton] at hid
    exact absurd hid.symm (hne id)
  unfold step
  cases i.op with
  | nop => exact .pure (by simp)
  | goto t | ret slot | jsr t => exact .pure (by simp [Exit.operand?])
  | nullConst | intConst v | longConst v | floatConst v | doubleConst v => exact .stay (hpush rfl (by simp))
  | loadConst index | loadWideConst index => exact .stay (steady_constant index)
  | load kind slot => exact .stay steady_load
  | store kind slot => exact .stay steady_store
  | increment slot amount => exact .stay steady_increment
  | arrayLoad kind => exact .stay steady_arrayLoad
  | arrayStore kind => exact .stay steady_arrayStore
  | pop | pop2 => exact .stay (steady_drop _ _)
  | dup | dupX1 | dupX2 | dup2 | dup2X1 | dup2X2 => exact .stay (steady_dup _ _ _)
  | swap => exact .stay steady_swap
  | arith kind op => exact .stay (steady_binary fun l r => by simp [Expr.Reuses, Expr.nodes, or_comm])
  | neg kind | convert source target | narrow kind =>
      exact .stay (steady_unary fun e => by simp [Expr.Reuses, Expr.nodes])
  | longCompare | floatCompare g | doubleCompare g =>
      exact .stay (steady_binary fun l r => by simp [Expr.Reuses, Expr.nodes, or_comm])
  | ifZero op t => exact steady_branch (by simp [Exit.operand?, Expr.reuses_of_sources, Expr.sources_zeroTest])
  | ifNull t | ifNonNull t => exact steady_branch (by simp [Exit.operand?, Expr.Reuses, Expr.nodes])
  | tableSwitch d low high ts | lookupSwitch d ps => exact steady_branch (by simp [Exit.operand?, Expr.Reuses])
  | ifIntCmp op t => exact steady_compare (reuses_intCondition op)
  | ifRefCmp op t => exact steady_compare fun l r => by simp [Expr.Reuses, Expr.nodes, or_comm]
  | leave kind =>
      cases kind with
      | none => exact (steady_emit (by simp [Stmt.operands]) rfl rfl).bind fun _ => .pure (by simp [Exit.operand?])
      | some kind => exact steady_popEmit (by simp [Stmt.operands, Expr.reuses_retype]) (fun _ => rfl) (fun _ => rfl) rfl
  | throw => exact steady_popEmit (by simp [Stmt.operands, Expr.Reuses]) (fun _ => rfl) (fun _ => rfl) rfl
  | monitorEnter | monitorExit =>
      exact .stay ((steady_pop i).bind fun e => steady_emit (by simp [Stmt.operands, Expr.Reuses]) rfl rfl)
  | getStatic index | getField index => exact .stay steady_getField
  | putStatic index | putField index => exact .stay steady_putField
  | invokeVirtual index | invokeSpecial index | invokeStatic index | invokeInterface index count =>
      exact .stay steady_invoke
  | invokeDynamic index => exact .stay steady_invokeDynamic
  | new index => exact .stay ((steady_ofFormat _).bind fun name => hpush rfl (by simp))
  | newArray code => exact .stay (steady_unary fun n => by simp [Expr.Reuses, Expr.nodes, Expr.nodesList])
  | newRefArray index =>
      exact .stay (steady_ofClass (steady_pop i) fun n t => by simp [Expr.Reuses, Expr.nodes, Expr.nodesList])
  | newMultiArray index dimensions =>
      exact .stay (steady_ofClass (steady_popN _ i) fun dims t => by simp [Expr.Reuses, Expr.nodes, Expr.mem_nodesList])
  | arrayLength => exact .stay (steady_unary fun e => by simp [Expr.Reuses, Expr.nodes])
  | checkCast index | instanceOf index =>
      exact .stay (steady_ofClass (steady_pop i) fun e t => by simp [Expr.Reuses, Expr.nodes])

end Sim

end JvmLift
