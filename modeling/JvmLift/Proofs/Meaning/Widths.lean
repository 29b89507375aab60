import JvmLift.Proofs.Block.Progress
import JvmLift.Proofs.Meaning.Machine

/-!
# Widths on the operand stack

The discipline and the instructions agree on which entries of the operand stack take two slots.
-/
namespace JvmLift

namespace Entry

@[simp] theorem isWide_dim (e : Entry) : e.dim.isWide = e.isWide := by
  cases e with
  | two s => cases s <;> rfl
  | _ => rfl

@[simp] theorem isWide_copy (e : Entry) : e.copy.isWide = e.isWide := by
  cases e with
  | two s => cases s <;> rfl
  | _ => rfl

end Entry

variable {ctx : MethodContext} {index : UInt16} {build : ErasedType → ErasedType}

namespace Checker

/-! ## Parts of a step that applies -/

section

variable {α β : Type} {st : List Entry} {r : β × List Entry}

theorem need_bind {x : Option α} {k} (h : (need x >>= k) st = some r) : ∃ a, x = some a ∧ k a st = some r := by
  obtain ⟨⟨a, st1⟩, hx, hk⟩ := Option.bind_eq_some_iff.mp h
  obtain ⟨b, hb, heq⟩ := Option.map_eq_some_iff.mp hx
  cases heq
  exact ⟨a, hb, hk⟩

theorem ensure_bind {p k} (h : (ensure p >>= k) st = some r) : p = true ∧ k () st = some r := by
  obtain ⟨⟨⟨⟩, st1⟩, hp, hk⟩ := Option.bind_eq_some_iff.mp h
  unfold ensure at hp
  split at hp
  · cases hp
    exact ⟨‹_›, hk⟩
  · cases hp

theorem pop_bind {k} (h : (pop >>= k) st = some r) : ∃ e rest, st = e :: rest ∧ k e rest = some r := by
  obtain ⟨⟨e, st1⟩, hp, hk⟩ := Option.bind_eq_some_iff.mp h
  cases st with
  | nil => cases hp
  | cons e' st =>
      cases hp
      exact ⟨e, st1, rfl, hk⟩

theorem popN_bind {n k} (h : (popN n >>= k) st = some r) : k () (st.drop n) = some r := by
  obtain ⟨⟨⟨⟩, st1⟩, hp, hk⟩ := Option.bind_eq_some_iff.mp h
  unfold popN at hp
  split at hp
  · cases hp
  · cases hp
    exact hk

theorem look_bind {e k} (h : (look true e >>= k) st = some r) : e.isFaint = false ∧ k e.isWide st = some r := by
  unfold look at h
  simp only [bind_assoc] at h
  obtain ⟨hclear, hk⟩ := ensure_bind h
  exact ⟨by simpa using hclear, hk⟩

end

/-! ## Widths that a step leaves -/

/-- Whenever the step applies, it takes entries off the stack and pushes some of the given widths. -/
def Sizes (d : Checker Unit) (n : Nat) (pushed : List Bool) : Prop :=
  ∀ st st', d st = some ((), st') → st'.map Entry.isWide = pushed ++ (st.drop n).map Entry.isWide

variable {d : Checker Unit} {n : Nat} {pushed : List Bool}

theorem sizes_pure : Sizes (pure ()) 0 [] := by
  rintro st st' ⟨⟩
  rfl

theorem sizes_push {e wide} (h : e.isWide = wide) : Sizes (push e) 0 [wide] := by
  rintro st st' ⟨⟩
  exact congrArg (· :: st.map Entry.isWide) h

theorem sizes_popN (n : Nat) : Sizes (popN n) n [] := by
  intro st st' h
  unfold popN at h
  split at h
  · cases h
  · cases h
    rfl

theorem Sizes.need {α} {x : Option α} {k} (h : ∀ a, x = some a → Sizes (k a) n pushed) :
    Sizes (need x >>= k) n pushed := by
  intro st st' hd
  obtain ⟨a, ha, hk⟩ := need_bind hd
  exact h a ha st st' hk

variable {k : Unit → Checker Unit}

theorem Sizes.ensure {p} (h : p = true → Sizes (k ()) n pushed) : Sizes (ensure p >>= k) n pushed := by
  intro st st' hd
  obtain ⟨hp, hk⟩ := ensure_bind hd
  exact h hp st st' hk

theorem Sizes.pop {k} (h : ∀ e, Sizes (k e) n pushed) : Sizes (pop >>= k) (n + 1) pushed := by
  intro st st' hd
  obtain ⟨e, rest, rfl, hk⟩ := pop_bind hd
  exact h e rest st' hk

theorem Sizes.popN {m} (h : Sizes (k ()) n pushed) : Sizes (popN m >>= k) (m + n) pushed := by
  intro st st' hd
  rw [h _ st' (popN_bind hd), List.drop_drop]

theorem sizes_compute (n : Nat) (t : ErasedType) : Sizes (compute n t) n [t.isWide] := by
  refine .popN (n := 0) ?_
  exact sizes_push (Entry.isWide_ofType t)

theorem sizes_constant (ctx : MethodContext) (index : UInt16) (wide : Bool) :
    Sizes (constant ctx index wide) 0 [wide] :=
  .need fun e _ => .ensure fun he => sizes_push ((Entry.isWide_ofType e.ty).trans (beq_iff_eq.mp he))

theorem sizes_load (ctx : MethodContext) (kind : ValueKind) (slot : UInt16) (i : Instruction) :
    Sizes (load ctx kind slot i) 0 [kind.isWide] :=
  .ensure fun he => sizes_push ((Entry.isWide_ofType _).trans (beq_iff_eq.mp he))

theorem sizes_arrayLoad (kind : ArrayKind) : Sizes (arrayLoad kind) 2 [(ErasedType.ofArrayKind kind).isWide] := by
  refine .pop fun _ => .pop fun array => ?_
  cases array with
  | one => exact sizes_push (Entry.isWide_ofType _)
  | array e => exact .ensure fun he => sizes_push ((Entry.isWide_dim e).trans (beq_iff_eq.mp he))
  | two s =>
      intro st st' h
      cases h

theorem sizes_neg (kind : ValueKind) : Sizes (neg kind) 1 [kind.isWide] :=
  .pop fun e => .ensure fun he => sizes_push ((Entry.isWide_dim e).trans (beq_iff_eq.mp he))

theorem sizes_arith (kind : ValueKind) : Sizes (arith kind) 2 [kind.isWide] :=
  .pop fun _ => .pop fun _ => .ensure fun _ => sizes_push (Entry.isWide_ofType _)

theorem isWide_ofOperand (name : String) : (Descriptor.ofOperand name).isWide = false := by
  unfold Descriptor.ofOperand
  split
  · rename_i hhead
    unfold Descriptor.parseType? Rule.whole
    cases hname : name.toList with
    | nil => simp [hname] at hhead
    | cons c rest =>
        obtain rfl : c = '[' := by simpa [hname] using hhead
        rw [Descriptor.fieldType]
        cases Descriptor.fieldType rest with
        | none => rfl
        | some r =>
            obtain ⟨t, rest⟩ := r
            cases rest <;> rfl
  · rfl

theorem sizes_ofClass (n : Nat) (h : ∀ name, (build (Descriptor.ofOperand name)).isWide = false) :
    Sizes (ofClass ctx index n build) n [false] := by
  refine .popN (n := 0) (.need fun name _ => ?_)
  exact sizes_push ((Entry.isWide_ofType _).trans (h name))

variable {m : MemberRef}

theorem sizes_getField (ctx : MethodContext) (index : UInt16) (hasObject : Bool) {t}
    (hm : (ctx.pool.memberRef index).toOption = some m) (ht : Descriptor.parseType? m.descriptor = some t) :
    Sizes (getField ctx index hasObject) hasObject.toNat [t.isWide] := by
  refine .need fun m' hm' => .need fun t' ht' => ?_
  cases hm.symm.trans hm'
  cases ht.symm.trans ht'
  refine .popN (n := 0) ?_
  exact sizes_push (Entry.isWide_ofType t)

theorem sizes_putField (ctx : MethodContext) (index : UInt16) (hasObject : Bool) :
    Sizes (putField ctx index hasObject) (hasObject.toNat + 1) [] :=
  .need fun _ _ => .need fun _ _ => .pop fun _ => sizes_popN _

def resultWidths (t : ErasedType) : List Bool := if t = .void then [] else [t.isWide]

theorem sizes_result (t : ErasedType) : Sizes (result t) 0 (resultWidths t) := by
  unfold result resultWidths
  split
  · exact sizes_pure
  · exact sizes_push (Entry.isWide_ofType t)

variable {t : MethodType}

theorem sizes_invoke (ctx : MethodContext) (kind : InvokeKind) (index : UInt16)
    (hm : (ctx.pool.memberRef index).toOption = some m) (ht : Descriptor.parseMethod? m.descriptor = some t) :
    Sizes (invoke ctx kind index) (t.params.length + if kind = .static then 0 else 1) (resultWidths t.result) := by
  refine .need fun m' hm' => .need fun t' ht' => ?_
  cases hm.symm.trans hm'
  cases ht.symm.trans ht'
  refine .popN (.popN (n := 0) (.ensure fun _ => ?_))
  exact sizes_result t.result

theorem void_of_invoke {kind st st'}
    (hm : (ctx.pool.memberRef index).toOption = some m) (ht : Descriptor.parseMethod? m.descriptor = some t)
    (hname : m.name = "<init>") (h : invoke ctx kind index st = some ((), st')) : t.result = .void := by
  obtain ⟨m', hm', h⟩ := need_bind h
  obtain ⟨t', ht', h⟩ := need_bind h
  cases hm.symm.trans hm'
  cases ht.symm.trans ht'
  obtain ⟨hvoid, -⟩ := ensure_bind (popN_bind (popN_bind h))
  simpa [hname] using hvoid

theorem sizes_invokeDynamic (ctx : MethodContext) (index : UInt16) {site}
    (hs : (ctx.pool.callSite index).toOption = some site) (ht : Descriptor.parseMethod? site.descriptor = some t) :
    Sizes (invokeDynamic ctx index) t.params.length (resultWidths t.result) := by
  refine .need fun s' hs' => .need fun t' ht' => ?_
  cases hs.symm.trans hs'
  cases ht.symm.trans ht'
  refine .popN (n := 0) ?_
  exact sizes_result t.result

end Checker

/-! ## Widths of the machine -/

variable {V H : Type} {M : Model V H}

def Machine.Sized (m : Machine V H) (st : List Entry) : Prop := m.stack.map (·.1) = st.map Entry.isWide

/-- How many entries an instruction takes off, and the widths of those it pushes, unless it only
shuffles the stack. -/
def Behaviour.sizes? : Behaviour V H → Option (Nat × List Bool)
  | .compute n wide _ => some (n, [wide])
  | .perform n _ | .depart n _ => some (n, [])
  | .load wide _ => some (0, [wide])
  | .store _ => some (1, [])
  | .increment .. => some (0, [])
  | .shuffle _ => none
  | .initObject n .. => some (n + 1, [])

variable {b : Behaviour V H} {pushed : List Bool}

namespace Model

theorem sizes?_calls (n : Nat) (t : ErasedType) (a : Action) :
    (M.calls n t a).sizes? = some (n, Checker.resultWidths t) := by
  unfold calls Checker.resultWidths
  split <;> rfl

theorem sizes_invoke {kind n} (hb : M.invoke ctx kind index = some b) (hn : b.sizes? = some (n, pushed)) :
    Checker.Sizes (Checker.invoke ctx kind index) n pushed := by
  obtain ⟨m, hm, hb⟩ := Option.bind_eq_some_iff.mp hb
  obtain ⟨t, ht, hb⟩ := Option.bind_eq_some_iff.mp hb
  have hsizes := Checker.sizes_invoke ctx kind index hm ht
  split at hb
  · rename_i hk
    cases hb
    rw [sizes?_calls] at hn
    cases hn
    simpa [hk] using hsizes
  · rename_i hk
    rw [if_neg hk] at hsizes
    split at hb
    · rename_i hname
      cases hb
      cases hn
      intro st st' h
      simpa [Checker.resultWidths, Checker.void_of_invoke hm ht hname h] using hsizes st st' h
    · cases hb
      rw [sizes?_calls] at hn
      cases hn
      exact hsizes

theorem sizes_ofClass {k n run} (hb : ofClass ctx index k run = some b)
    (hn : b.sizes? = some (n, pushed)) (hbuild : ∀ name, (build (Descriptor.ofOperand name)).isWide = false) :
    Checker.Sizes (Checker.ofClass ctx index k build) n pushed := by
  obtain ⟨name, -, hb⟩ := Option.bind_eq_some_iff.mp hb
  cases hb
  cases hn
  exact Checker.sizes_ofClass k hbuild

theorem sizes_step {i n strict} (hb : M.behaviour ctx i = some b) (hn : b.sizes? = some (n, pushed)) :
    Checker.Sizes (Checker.step strict ctx i) n pushed := by
  unfold behaviour at hb
  unfold Checker.step
  cases hop : i.op <;> simp only [hop] at hb <;> try (cases hb <;> cases hn)
  case nullConst | intConst _ | longConst _ | floatConst _ | doubleConst _ => exact Checker.sizes_push rfl
  case loadConst index | loadWideConst index =>
    obtain ⟨v, -, rfl⟩ := Option.map_eq_some_iff.mp hb
    cases hn
    exact Checker.sizes_constant ctx index _
  case load kind slot => exact Checker.sizes_load ctx kind slot i
  case store kind slot =>
    refine .pop fun _ => ?_
    rintro st st' ⟨⟩
    simp [Function.comp_def]
  case increment slot amount =>
    rintro st st' ⟨⟩
    simp [Function.comp_def]
  case arrayLoad kind => exact Checker.sizes_arrayLoad kind
  case arrayStore _ | monitorEnter | monitorExit | ifZero _ _ | ifIntCmp _ _ | ifRefCmp _ _ | ifNull _ | ifNonNull _
    | tableSwitch _ _ _ _ | lookupSwitch _ _ | throw =>
    exact Checker.sizes_popN _
  case goto _ => exact Checker.sizes_pure
  case leave kind =>
    cases kind with
    | none =>
        cases hb
        cases hn
        exact Checker.sizes_pure
    | some kind =>
        cases hb
        cases hn
        exact Checker.sizes_popN _
  case arith kind op => exact Checker.sizes_arith kind
  case neg kind => exact Checker.sizes_neg kind
  case convert source target => exact Checker.sizes_compute 1 _
  case narrow kind => cases kind <;> exact Checker.sizes_compute 1 _
  case longCompare | floatCompare _ | doubleCompare _ => exact Checker.sizes_compute 2 .int
  case newArray code => exact Checker.sizes_compute 1 (.array _)
  case arrayLength => exact Checker.sizes_compute 1 .int
  case getStatic index | getField index =>
    obtain ⟨m, hm, hb⟩ := Option.bind_eq_some_iff.mp hb
    obtain ⟨t, ht, hb⟩ := Option.bind_eq_some_iff.mp hb
    cases hb
    cases hn
    exact Checker.sizes_getField ctx index _ hm ht
  case putStatic index | putField index =>
    obtain ⟨m, hm, hb⟩ := Option.bind_eq_some_iff.mp hb
    obtain ⟨t, ht, hb⟩ := Option.bind_eq_some_iff.mp hb
    cases hb
    cases hn
    exact Checker.sizes_putField ctx index _
  case invokeVirtual index | invokeSpecial index | invokeStatic index | invokeInterface index _ =>
    exact sizes_invoke hb hn
  case invokeDynamic index =>
    obtain ⟨site, hs, hb⟩ := Option.bind_eq_some_iff.mp hb
    obtain ⟨t, ht, hb⟩ := Option.bind_eq_some_iff.mp hb
    cases hb
    rw [sizes?_calls] at hn
    cases hn
    exact Checker.sizes_invokeDynamic ctx index hs ht
  case new index =>
    obtain ⟨name, -, hb⟩ := Option.bind_eq_some_iff.mp hb
    cases hb
    cases hn
    exact Checker.sizes_ofClass 0 fun _ => rfl
  case newRefArray index => exact sizes_ofClass hb hn fun _ => rfl
  case newMultiArray index dimensions => exact sizes_ofClass hb hn Checker.isWide_ofOperand
  case checkCast index => exact sizes_ofClass hb hn Checker.isWide_ofOperand
  case instanceOf index => exact sizes_ofClass hb hn fun _ => rfl

end Model

namespace Machine

theorem take_eq_some {n} {m : Machine V H} {args rest} (h : m.take n = some (args, rest)) : rest = m.stack.drop n := by
  unfold take at h
  split at h
  · cases h
  · cases h
    rfl

variable {left : Option (Departure V)}

theorem widths_apply {m m' : Machine V H} {n} (h : m.apply M b = some (m', left)) (hn : b.sizes? = some (n, pushed)) :
    m'.stack.map (·.1) = pushed ++ (m.stack.map (·.1)).drop n := by
  cases b with
  | shuffle form => cases hn
  | compute k wide run | perform k run | depart k goes =>
      obtain ⟨⟨args, rest⟩, htake, h⟩ := Option.bind_eq_some_iff.mp h
      obtain rfl := take_eq_some htake
      cases h
      cases hn
      simp
  | load wide slot | increment slot amount =>
      cases h
      cases hn
      rfl
  | store slot =>
      simp only [apply] at h
      cases hn
      split at h
      · cases h
      · rename_i hs
        cases h
        simp [hs]
  | initObject k kind owner descriptor =>
      obtain ⟨⟨args, rest⟩, htake, h⟩ := Option.bind_eq_some_iff.mp h
      have hrest := take_eq_some htake
      cases hn
      have hdrop : m.stack.drop (k + 1) = rest.tail := by rw [hrest, List.tail_drop]
      simp only at h
      split at h <;> cases h <;> simp [← List.map_drop, hdrop]

theorem Sized.step {m m' : Machine V H} {i} {strict : Bool} {st st'} (h : m.Sized st) (hb : M.behaviour ctx i = some b)
    (hshuffle : b.sizes? ≠ none) (happly : m.apply M b = some (m', left))
    (hstep : Checker.step strict ctx i st = some ((), st')) : m'.Sized st' := by
  obtain ⟨⟨n, pushed⟩, hn⟩ := Option.ne_none_iff_exists'.mp hshuffle
  rw [Sized, widths_apply happly hn, Model.sizes_step hb hn st st' hstep, h, List.map_drop]

end Machine

end JvmLift
