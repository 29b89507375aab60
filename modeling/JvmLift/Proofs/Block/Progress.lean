import JvmLift.Proofs.Block.Discipline
import JvmLift.Proofs.Block.Names
import JvmLift.Proofs.Flow.Dominance
import Mathlib.Data.List.Forall2

/-!
# Disciplined code is simulated

The simulation follows the strict discipline step by step: what the discipline says of a stack entry is what the
simulation sees in the expression there. So no step of the simulation fails.
-/
namespace JvmLift

open List

/-! ## What entries say of expressions -/

variable {f : Frame}

namespace Duplicates

def Le (ds ds' : Duplicates) : Prop := ds.values <+: ds'.values

theorem Le.refl (ds : Duplicates) : ds.Le ds := prefix_rfl

theorem Le.trans {ds1 ds2 ds3 : Duplicates} (h : ds1.Le ds2) (h' : ds2.Le ds3) : ds1.Le ds3 :=
  List.IsPrefix.trans h h'

theorem Le.get? {ds ds' : Duplicates} (h : ds.Le ds') {id v} (hv : ds.get? id = some v) : ds'.get? id = some v := by
  obtain ⟨more, hmore⟩ := h
  have hlt : id < ds.values.length := (List.getElem?_eq_some_iff.mp hv).1
  unfold Duplicates.get?
  rw [← hmore, getElem?_append_left hlt]
  exact hv

/-- The width the simulation finds for an expression, now and with more duplicates. -/
structure Finds (ds : Duplicates) (e : Expr) (wide : Bool) : Prop where
  read : ∀ id, e = .dupLoad id → ∃ v, ds.get? id = some v ∧ v.ty.isWide = wide
  other : (∀ id, e ≠ .dupLoad id) → e.ty.isWide = wide

variable {ds ds' : Duplicates} {e : Expr} {wide : Bool}

theorem Finds.mono (h : ds.Finds e wide) (hle : ds.Le ds') : ds'.Finds e wide where
  read id he := by
    obtain ⟨v, hv, hw⟩ := h.read id he
    exact ⟨v, hle.get? hv, hw⟩
  other := h.other

theorem finds_of_ty (hne : ∀ id, e ≠ .dupLoad id) (h : e.ty.isWide = wide) : ds.Finds e wide :=
  ⟨fun id he => absurd he (hne id), fun _ => h⟩

theorem Finds.isWide (h : f.duplicates.Finds e wide) : f.isWide e = wide := by
  unfold Frame.isWide
  split
  · obtain ⟨v, hv, hw⟩ := h.read _ rfl
    simp [hv, hw]
  · rename_i hne
    exact h.other hne

end Duplicates

namespace Entry

def Admits : Entry → ErasedType → Prop
  | .one, t => t.isWide = false ∧ ∀ u, t ≠ .array u
  | .array e, t => t.isWide = false ∧ ∀ u, t = .array u → e.Admits u
  | .two .own, t => t.isWide = true
  | .two _, t => t.isWide = true ∨ t = .unknown

def Says (ds : Duplicates) (entry : Entry) (e : Expr) : Prop :=
  entry.Admits e.ty ∧ (entry.isFaint = false → ds.Finds e entry.isWide)

variable {ds ds' : Duplicates} {entry : Entry} {e : Expr} {t : ErasedType}

theorem admits_ofType (t : ErasedType) : (ofType t).Admits t := by
  induction t with
  | array t ih =>
      refine ⟨rfl, fun u hu => ?_⟩
      cases hu
      exact ih
  | _ => simp [ofType, Admits, ErasedType.isWide]

theorem isWide_ofType (t : ErasedType) : (ofType t).isWide = t.isWide := by cases t <;> rfl

theorem admits_of_single (he : entry.isWide = false)
    (ht : t.isWide = false) (hne : ∀ u, t ≠ .array u) : entry.Admits t := by
  cases entry with
  | one => exact ⟨ht, hne⟩
  | array e => exact ⟨ht, fun u hu => absurd hu (hne u)⟩
  | two s => cases he

theorem admits_of_wide (he : entry.isWide = true) (ht : t.isWide = true) : entry.Admits t := by
  cases entry with
  | two s => cases s <;> simp [Admits, ht]
  | one | array e => cases he

theorem Admits.isWide_eq_false (h : entry.Admits t) (he : entry.isWide = false) : t.isWide = false := by
  cases entry with
  | one | array e => exact h.1
  | two s => cases he

theorem Admits.wide_or_unknown (h : entry.Admits t) (he : entry.isWide = true) : t.isWide = true ∨ t = .unknown := by
  cases entry with
  | two s =>
      cases s with
      | own => exact .inl h
      | copied => exact h
      | faint => exact h
  | one | array e => cases he

theorem isFaint_of_narrow (h : entry.isWide = false) : entry.isFaint = false := by
  cases entry with
  | two s => cases h
  | one | array e => rfl

theorem Says.mono (h : entry.Says ds e) (hle : ds.Le ds') : entry.Says ds' e :=
  ⟨h.1, fun hf => (h.2 hf).mono hle⟩

theorem says_of_ty (hne : ∀ id, e ≠ .dupLoad id)
    (hty : entry.Admits e.ty) (hw : entry.isFaint = false → e.ty.isWide = entry.isWide) : entry.Says ds e :=
  ⟨hty, fun hf => Duplicates.finds_of_ty hne (hw hf)⟩

theorem says_ofType (hne : ∀ id, e ≠ .dupLoad id) : (ofType e.ty).Says ds e :=
  says_of_ty hne (admits_ofType _) fun _ => (isWide_ofType _).symm

end Entry

/-! ## Following the discipline -/

/-- A stack is as the discipline says. -/
def Fits (ds : Duplicates) (stack : List Expr) (st : List Entry) : Prop :=
  List.Forall₂ (fun e entry => Entry.Says ds entry e) stack st

theorem Fits.mono {ds ds' stack st} (h : Fits ds stack st) (hle : ds.Le ds') : Fits ds' stack st :=
  h.imp fun _ _ hs => hs.mono hle

abbrev Frame.Fits (f : Frame) (st : List Entry) : Prop := JvmLift.Fits f.duplicates f.stack st

/-- Whenever the step on categories applies, the step of the simulation succeeds with a related
result. -/
def Sim.Follows {α β : Type} (ds : Duplicates) (c : Sim α) (d : Checker β) (R : Duplicates → α → β → Prop) : Prop :=
  ∀ f st b st', ds.Le f.duplicates → f.Fits st → d st = some (b, st') →
    ∃ a f', c f = .ok (a, f') ∧ f.duplicates.Le f'.duplicates ∧ f'.Fits st' ∧ R f'.duplicates a b

namespace Sim

variable {α : Type}

theorem bind_ok {β c} {k : α → Sim β} {f1 a r} (hc : c f = .ok (a, f1)) (hk : k a f1 = .ok r) : (c >>= k) f = .ok r :=
  bind_eq_ok.mpr ⟨_, hc, hk⟩

theorem of_bind_ok {β c} {k : α → Sim β} {r} (h : (c >>= k) f = .ok r) :
    ∃ a f1, c f = .ok (a, f1) ∧ k a f1 = .ok r := by
  obtain ⟨⟨a, f1⟩, hc, hk⟩ := bind_eq_ok.mp h
  exact ⟨a, f1, hc, hk⟩

theorem get_ok (f : Frame) : (get : Sim Frame) f = .ok (f, f) := rfl

theorem set_ok (f f' : Frame) : (set f' : Sim PUnit) f = .ok ((), f') := rfl

def Any {α β : Type} (_ : Duplicates) (_ : α) (_ : β) : Prop := True

variable {e : Expr} {es : List Expr} {t : ErasedType} {index : UInt16}

section

variable {α β γ δ : Type} {ds : Duplicates} {c : Sim α} {d : Checker β} {R : Duplicates → α → β → Prop}
  {entry : Entry}

namespace Follows

variable {k : α → Sim γ} {R' : Duplicates → γ → δ → Prop}

theorem bind {l} (h : Follows ds c d R)
    (hk : ∀ ds' a b, ds.Le ds' → R ds' a b → Follows ds' (k a) (l b) R') : Follows ds (c >>= k) (d >>= l) R' := by
  intro f st b st' hle hf hd
  obtain ⟨⟨b1, st1⟩, hd1, hd2⟩ := Option.bind_eq_some_iff.mp hd
  obtain ⟨a1, f1, hc1, hle1, hf1, hR⟩ := h f st b1 st1 hle hf hd1
  obtain ⟨a2, f2, hc2, hle2, hf2, hR'⟩ :=
    hk _ a1 b1 (hle.trans hle1) hR f1 st1 b st' (.refl _) hf1 hd2
  exact ⟨a2, f2, bind_ok hc1 hc2, hle1.trans hle2, hf2, hR'⟩

theorem pure {a b} (h : ∀ ds', ds.Le ds' → R ds' a b) : Follows ds (Pure.pure a) (Pure.pure b) R := by
  intro f st b' st' hle hf hd
  cases hd
  exact ⟨a, f, rfl, .refl _, hf, h _ hle⟩

theorem left {b d'} (h : Follows ds c (Pure.pure b) R)
    (hk : ∀ ds' a, ds.Le ds' → R ds' a b → Follows ds' (k a) d' R') : Follows ds (c >>= k) d' R' := by
  intro f st b' st' hle hf hd
  obtain ⟨a1, f1, hc1, hle1, hf1, hR⟩ := h f st b st hle hf rfl
  obtain ⟨a2, f2, hc2, hle2, hf2, hR'⟩ :=
    hk _ a1 (hle.trans hle1) hR f1 st b' st' (.refl _) hf1 hd
  exact ⟨a2, f2, bind_ok hc1 hc2, hle1.trans hle2, hf2, hR'⟩

theorem leftEq {v d'} (h : Follows ds c (Pure.pure ()) fun _ a _ => a = v)
    (hk : ∀ ds', ds.Le ds' → Follows ds' (k v) d' R') :
    Follows ds (c >>= k) d' R' := h.left fun ds' _ hle ha => ha ▸ hk ds' hle

theorem get {k : Frame → Sim γ} {R'}
    (h : ∀ f, ds.Le f.duplicates → Follows ds (k f) d R') : Follows ds (get >>= k) d R' := by
  intro f st b st' hle hf hd
  exact h f hle f st b st' hle hf hd

theorem map (h : Follows ds c d R) (g : α → γ) : Follows ds (c >>= fun a => Pure.pure (g a)) d Any := by
  intro f st b st' hle hf hd
  obtain ⟨a, f', hc, hle', hf', -⟩ := h f st b st' hle hf hd
  exact ⟨g a, f', bind_ok hc rfl, hle', hf', trivial⟩

theorem ite {p : Bool} {c' d'} (h : Follows ds c d R) (h' : Follows ds c' d' R) :
    Follows ds (if p then c else c') (if p then d else d') R := by
  cases p with
  | true => exact h
  | false => exact h'

theorem ensure {p l} (h : p = true → Follows ds c (l ()) R) : Follows ds c (Checker.ensure p >>= l) R := by
  intro f st b st' hle hf hd
  obtain ⟨⟨⟨⟩, st1⟩, hp, hd⟩ := Option.bind_eq_some_iff.mp hd
  unfold Checker.ensure at hp
  split at hp
  · cases hp
    exact h ‹_› f st b st' hle hf hd
  · cases hp

theorem look {l} (h : entry.isFaint = false → Follows ds c (l entry.isWide) R) :
    Follows ds c (Checker.look true entry >>= l) R := by
  unfold Checker.look
  simp only [bind_assoc]
  exact .ensure fun hp => h (by simpa using hp)

theorem need {x : Option δ} {l} (h : ∀ v, x = some v → Follows ds c (l v) R) :
    Follows ds c (Checker.need x >>= l) R := by
  intro f st b st' hle hf hd
  obtain ⟨⟨v, st1⟩, hx, hd⟩ := Option.bind_eq_some_iff.mp hd
  obtain ⟨v, hv, heq⟩ := Option.map_eq_some_iff.mp hx
  cases heq
  exact h v hv f st b st' hle hf hd

end Follows

/-! ### Parts of a step -/

variable (ctx : MethodContext) (i : Instruction)

theorem follows_pop : Follows ds (pop i) Checker.pop fun ds' e entry => entry.Says ds' e := by
  intro f st b st' hle hf hd
  cases st with
  | nil => cases hd
  | cons entry st =>
      cases hd
      obtain ⟨e, stack, he, hrest, hstack⟩ := forall₂_cons_right_iff.mp hf
      refine ⟨e, { f with stack := stack }, ?_, .refl _, hrest, he⟩
      refine bind_ok (get_ok f) ?_
      rw [hstack]
      exact bind_ok (set_ok ..) rfl

theorem follows_push (h : entry.Says ds e) : Follows ds (push e) (Checker.push entry) Any := by
  intro f st b st' hle hf hd
  cases hd
  exact ⟨(), _, rfl, .refl _, .cons (h.mono hle) hf, trivial⟩

theorem follows_pushAll {entries} (h : Fits ds es entries) : Follows ds (pushAll es) (Checker.pushAll entries) Any := by
  intro f st b st' hle hf hd
  cases hd
  exact ⟨(), _, rfl, .refl _, rel_append (h.mono hle) hf, trivial⟩

theorem follows_popN (n : Nat) : Follows ds (popN n i) (Checker.popN n) Any := by
  intro f st b st' hle hf hd
  unfold Checker.popN at hd
  split at hd
  · cases hd
  · rename_i hlen
    cases hd
    have hlen' : ¬ f.stack.length < n := hf.length_eq ▸ hlen
    refine ⟨(f.stack.take n).reverse, { f with stack := f.stack.drop n }, ?_, .refl _,
      forall₂_drop n hf, trivial⟩
    refine bind_ok (get_ok f) ?_
    rw [if_neg hlen']
    exact bind_ok (set_ok ..) rfl

theorem popN_one : Checker.popN 1 = Checker.pop >>= fun _ => pure () := by
  funext st
  cases st <;> rfl

theorem popN_two : Checker.popN 2 = Checker.pop >>= fun _ => Checker.popN 1 := by
  funext st
  rcases st with _ | ⟨a, _ | ⟨b, st⟩⟩ <;> rfl

theorem follows_popOne (operation : String) : Follows ds (popSingle i operation) (Checker.popOne true)
      fun ds' e entry => entry.Says ds' e ∧ entry.isWide = false := by
  refine (follows_pop i).bind fun ds1 e entry hle hs => .look fun hclear => .ensure fun hwide => ?_
  refine .get fun f hf => ?_
  rw [Bool.not_eq_true'] at hwide
  have hnarrow : f.isWide e = false := by
    rw [((hs.2 hclear).mono hf).isWide, hwide]
  simp only [hnarrow]
  exact .pure fun ds' hle => ⟨hs.mono hle, hwide⟩

theorem follows_emit (stmt : Stmt) : Follows ds (emit ctx stmt i) (pure ()) Any := by
  intro f st b st' hle hf hd
  cases hd
  exact ⟨(), _, rfl, .refl _, hf, trivial⟩

theorem follows_discard (e : Expr) : Follows ds (discard ctx e i) (pure ()) Any := by
  unfold discard
  split
  · exact follows_emit ctx i _
  · exact .pure fun _ _ => trivial

theorem follows_duplicate {value} (h : entry.Says ds value) (hclear : entry.isFaint = false) :
    Follows ds (duplicate ctx value i) (pure ()) fun ds' c _ => entry.copy.Says ds' c := by
  have hcopy : ∀ ds', ds.Le ds' → entry.copy.Says ds' value := by
    intro ds' hle
    have h' := h.mono hle
    cases entry with
    | two s =>
        cases s with
        | own => exact ⟨.inl h'.1, fun _ => h'.2 rfl⟩
        | copied => exact h'
        | faint => exact h'
    | one | array e => exact h'
  unfold duplicate
  lift_lets
  intro isShared
  cases hshared : isShared with
  | true => exact .pure hcopy
  | false =>
      have hne : ∀ id, value ≠ .dupLoad id := by
        rintro id rfl
        exact Bool.noConfusion (show true = false from hshared)
      intro f st b st' hle hf hd
      cases hd
      have hgrow : f.duplicates.Le ⟨f.duplicates.values ++ [value]⟩ := prefix_append ..
      have hread : entry.copy.Says ⟨f.duplicates.values ++ [value]⟩ (.dupLoad f.duplicates.values.length) := by
        have hwide : value.ty.isWide = entry.isWide := (h.2 hclear).other hne
        have hget : Duplicates.get? ⟨f.duplicates.values ++ [value]⟩ f.duplicates.values.length = some value := by
          simp [Duplicates.get?]
        have hfinds : Duplicates.Finds ⟨f.duplicates.values ++ [value]⟩ (.dupLoad f.duplicates.values.length)
            entry.copy.isWide := by
          refine ⟨fun id hid => ?_, fun hno => absurd rfl (hno _)⟩
          cases hid
          refine ⟨value, hget, hwide.trans ?_⟩
          cases entry with
          | two s => cases s <;> rfl
          | one => rfl
          | array e => rfl
        refine ⟨?_, fun _ => hfinds⟩
        cases entry with
        | two s =>
            cases s with
            | own => exact .inr rfl
            | copied => exact .inr rfl
            | faint => cases hclear
        | one => exact ⟨rfl, nofun⟩
        | array e => exact ⟨rfl, nofun⟩
      exact ⟨_, _, rfl, hgrow, hf.mono hgrow, hread⟩

theorem says_dim (h : entry.Admits e.ty) (hne : ∀ id, e ≠ .dupLoad id) : entry.dim.Says ds e := by
  have hadmits : entry.dim.Admits e.ty := by
    cases entry with
    | two s => cases s <;> exact h
    | one | array e => exact h
  refine Entry.says_of_ty hne hadmits fun hclear => ?_
  cases hw : entry.dim.isWide with
  | false => exact hadmits.isWide_eq_false hw
  | true =>
      cases entry with
      | two s =>
          cases s with
          | own => exact hadmits
          | copied => cases hclear
          | faint => cases hclear
      | one => cases hw
      | array e => cases hw

theorem says_dim_self (h : entry.Says ds e) : entry.dim.Says ds e := by
  cases entry with
  | two s =>
      cases s with
      | own => exact h
      | copied => exact ⟨h.1, nofun⟩
      | faint => exact h
  | one | array e => exact h

theorem spillEntry_ok (v : LocalVar) (h : entry.Says f.duplicates e) :
    ∃ e' f', spillEntry ctx v e f = .ok (e', f') ∧ f'.duplicates = f.duplicates ∧ entry.dim.Says f.duplicates e' := by
  by_cases hr : f.readsVar v e = true
  · refine ⟨.localVar (.ofTemp f.nextTemp e.ty),
      { f with
        nextTemp := f.nextTemp + 1
        out := f.out ++ [⟨.store (.ofTemp f.nextTemp e.ty) e, f.start, f.start, ctx.lines.line? f.start⟩] },
      bind_ok (get_ok f) ?_, rfl, says_dim h.1 nofun⟩
    rw [if_pos hr]
    exact bind_ok (set_ok ..) rfl
  · refine ⟨e, f, bind_ok (get_ok f) ?_, rfl, says_dim_self h⟩
    rw [if_neg hr]
    rfl

theorem mapM_spillEntry_ok (v : LocalVar) {entries}
    (h : List.Forall₂ (fun e entry => Entry.Says f.duplicates entry e) es entries) :
    ∃ es' f', es.mapM (spillEntry ctx v) f = .ok (es', f') ∧ f'.duplicates = f.duplicates ∧
      List.Forall₂ (fun e entry => Entry.Says f.duplicates entry e) es' (entries.map Entry.dim) := by
  induction es generalizing f entries with
  | nil =>
      cases h
      exact ⟨[], f, rfl, rfl, .nil⟩
  | cons e es ih =>
      cases h with
      | cons he hes =>
          obtain ⟨e', f1, hc, hds, he'⟩ := spillEntry_ok ctx v he
          rw [← hds] at hes
          obtain ⟨es', f2, hc', hds', hes'⟩ := ih hes
          refine ⟨e' :: es', f2, ?_, hds'.trans hds, .cons he' (hds ▸ hes')⟩
          rw [mapM_cons]
          exact bind_ok hc (bind_ok hc' rfl)

theorem follows_spillReaders (v : LocalVar) : Follows ds (spillReaders ctx v) (Checker.mapAll Entry.dim) Any := by
  intro f st b st' hle hf hd
  cases hd
  obtain ⟨es, f', hc, hds, hes⟩ := mapM_spillEntry_ok ctx v (rel_reverse hf)
  refine ⟨(), { f' with stack := es.reverse }, ?_, hds ▸ .refl _, ?_, trivial⟩
  · exact bind_ok (get_ok f) (bind_ok hc rfl)
  · have hrev := rel_reverse hes
    rw [map_reverse, reverse_reverse] at hrev
    exact hrev.imp fun e entry hs => hds ▸ hs

/-! ### Stack instructions -/

theorem follows_popSlots (operation : String) (slots : Nat) :
    Follows ds (popSlots i operation slots) (Checker.popSlots true slots)
      fun ds' es entries => Fits ds' es entries ∧ ∀ entry ∈ entries, entry.isFaint = false := by
  induction slots using Nat.twoStepInduction generalizing ds with
  | zero => exact .pure fun _ _ => ⟨.nil, nofun⟩
  | one =>
      refine (follows_popOne i operation).bind fun ds1 e entry _ ⟨hs, hw⟩ => .pure fun ds2 hle => ?_
      exact ⟨.cons (hs.mono hle) .nil, forall_mem_singleton.mpr (Entry.isFaint_of_narrow hw)⟩
  | more slots ih ih' =>
      refine (follows_pop i).bind fun ds1 e entry _ hs => .look fun hclear => .get fun f hf => ?_
      rw [((hs.2 hclear).mono hf).isWide]
      refine (ih.ite ih').bind fun ds2 es entries hle ⟨hes, hclears⟩ => .pure fun ds3 hle' => ?_
      exact ⟨.cons (hs.mono (hle.trans hle')) (hes.mono hle'), forall_mem_cons.mpr ⟨hclear, hclears⟩⟩

theorem follows_drop (operation : String) (slots : Nat) :
    Follows ds (drop ctx operation slots i) (Checker.drop true slots) Any := by
  have hdiscard (es : List Expr) (ds : Duplicates) : Follows ds (es.forM (discard ctx · i)) (pure ()) Any := by
    induction es generalizing ds with
    | nil => exact .pure fun _ _ => trivial
    | cons e es ih => exact (follows_discard ctx i e).left fun ds1 _ _ _ => ih ds1
  exact (follows_popSlots i operation slots).bind fun ds1 es _ _ _ => hdiscard es ds1

theorem duplicateAll_cons : duplicateAll ctx i (e :: es) =
    duplicateAll ctx i es >>= fun copies => duplicate ctx e i >>= fun c => pure (c :: copies) :=
  foldrM_cons

theorem follows_duplicateAll {entries} (h : Fits ds es entries) (hclear : ∀ entry ∈ entries, entry.isFaint = false) :
    Follows ds (duplicateAll ctx i es) (pure ()) fun ds' copies _ => Fits ds' copies (entries.map Entry.copy) := by
  induction h with
  | nil => exact .pure fun _ _ => .nil
  | cons hs hes ih =>
      rw [forall_mem_cons] at hclear
      rw [duplicateAll_cons]
      refine (ih hclear.2).left fun ds1 copies hle hcopies => ?_
      refine (follows_duplicate ctx i (hs.mono hle) hclear.1).left fun ds2 c hle' hc => .pure fun ds3 hle'' => ?_
      exact .cons (hc.mono hle'') (hcopies.mono (hle'.trans hle''))

theorem follows_dup (operation : String) (copied under : Nat) :
    Follows ds (dup ctx operation copied under i) (Checker.dup true copied under) Any := by
  refine (follows_popSlots i operation copied).bind fun ds1 top _ _ ⟨htop, hclear⟩ => ?_
  refine (follows_popSlots i operation under).bind fun ds2 middle _ hle ⟨hmiddle, _⟩ => ?_
  refine (follows_duplicateAll ctx i (htop.mono hle) hclear).left fun ds3 copies hle' hcopies => ?_
  exact follows_pushAll (rel_append hcopies (rel_append (hmiddle.mono hle') hcopies))

theorem follows_swap : Follows ds (swap i) (Checker.swap true) Any := by
  refine (follows_popOne i "swap").bind fun ds1 v1 entry1 _ ⟨hs1, _⟩ => ?_
  refine (follows_popOne i "swap").bind fun ds2 v2 entry2 hle2 ⟨hs2, _⟩ => ?_
  exact follows_pushAll (.cons hs2 (.cons (hs1.mono hle2) .nil))

/-! ### Other instructions -/

theorem follows_ofFormat {x : Except FormatFault α} {v} (h : x.toOption = some v) :
    Follows ds (ofFormat x) (pure ()) fun _ a _ => a = v := by
  cases x with
  | error e => cases h
  | ok a =>
      cases h
      intro f st b st' _ hf hd
      cases hd
      exact ⟨v, f, rfl, .refl _, hf, rfl⟩

theorem follows_fieldType {descriptor} (h : Descriptor.parseType? descriptor = some t) :
    Follows ds (fieldType descriptor i) (pure ()) fun _ a _ => a = t := by
  unfold fieldType
  rw [h]
  exact .pure fun _ _ => rfl

theorem follows_methodType {descriptor t} (h : Descriptor.parseMethod? descriptor = some t) :
    Follows ds (methodType descriptor i) (pure ()) fun _ a _ => a = t := by
  unfold methodType
  rw [h]
  exact .pure fun _ _ => rfl

theorem follows_operandType {name} (h : (ctx.pool.className index).toOption = some name) :
    Follows ds (operandType ctx index) (pure ()) fun _ a _ => a = Descriptor.ofOperand name := by
  exact (follows_ofFormat h).left fun _ _ _ hname => .pure fun _ _ => by rw [hname]

theorem dupLoad_not_mem_constant {pool} (h : (constantValue pool index).toOption = some e) (id : Nat) :
    .dupLoad id ∉ e.nodes := by
  unfold constantValue at h
  cases hc : pool.get index with
  | error fault =>
      rw [hc] at h
      cases h
  | ok c =>
      rw [hc] at h
      cases c with
      | string text =>
          cases ht : pool.utf8 text <;> simp [ht, bind, Except.bind, Except.toOption, pure, Except.pure] at h
          simp [← h, Expr.nodes]
      | classRef name =>
          cases ht : pool.className index <;> simp [ht, bind, Except.bind, Except.toOption, pure, Except.pure] at h
          simp [← h, Expr.nodes]
      | _ =>
          cases h
          simp [Expr.nodes]

theorem follows_constant (index : UInt16) (wide : Bool) :
    Follows ds (ofFormat (constantValue ctx.pool index) >>= push) (Checker.constant ctx index wide) Any := by
  refine .need fun e he => .ensure fun _ => ?_
  refine (follows_ofFormat he).leftEq fun ds' _ => ?_
  exact follows_push (Entry.says_ofType fun id h => dupLoad_not_mem_constant he id (by simp [h, Expr.nodes]))

theorem follows_load (kind : ValueKind) (slot : UInt16) :
    Follows ds (load ctx kind slot i) (Checker.load ctx kind slot i) Any := by
  refine .ensure fun _ => ?_
  unfold load Checker.loadedType
  split
  · exact follows_push (Entry.says_ofType (e := .thisRef) nofun)
  · exact follows_push (Entry.says_ofType (e := .localVar _) nofun)

theorem follows_store (kind : ValueKind) (slot : UInt16) :
    Follows ds (store ctx kind slot i) (Checker.pop >>= fun _ => Checker.mapAll Entry.dim) Any := by
  refine (follows_pop i).bind fun ds' value _ _ _ => ?_
  split
  · intro f st b st' hle hf hd
    cases hd
    refine ⟨(), _, rfl, .refl _, ?_, trivial⟩
    exact forall₂_map_right_iff.mpr (hf.imp fun e entry hs => says_dim_self hs)
  · intro f st b st' hle hf hd
    obtain ⟨_, f1, hc1, hle1, hf1, -⟩ := follows_spillReaders ctx _ f st b st' hle hf hd
    exact ⟨(), _, bind_ok hc1 rfl, hle1, hf1, trivial⟩

theorem follows_increment (slot : UInt16) (amount : Int16) :
    Follows ds (increment ctx slot amount i) (Checker.mapAll Entry.dim) Any := by
  intro f st b st' hle hf hd
  obtain ⟨_, f1, hc1, hle1, hf1, -⟩ := follows_spillReaders ctx _ f st b st' hle hf hd
  exact ⟨(), _, bind_ok hc1 rfl, hle1, hf1, trivial⟩

theorem follows_arrayLoad (kind : ArrayKind) : Follows ds (arrayLoad kind i) (Checker.arrayLoad kind) Any := by
  refine (follows_pop i).bind fun ds1 index _ _ _ => ?_
  refine (follows_pop i).bind fun ds2 array entry _ hs => ?_
  have hkind : ∀ u, ErasedType.ofArrayKind kind ≠ .array u := by cases kind <;> exact nofun
  cases entry with
  | one =>
      have helem : elementType array kind = .ofArrayKind kind := by
        unfold elementType
        split
        · rename_i t ht
          exact absurd ht (hs.1.2 t)
        · rfl
      rw [helem]
      exact follows_push (Entry.says_ofType (e := .arrayLoad ..) nofun)
  | array entry =>
      refine .ensure fun hw => follows_push (says_dim ?_ nofun)
      rw [beq_iff_eq] at hw
      unfold elementType
      split
      · rename_i t ht
        exact hs.1.2 t ht
      · cases hwide : entry.isWide with
        | false => exact Entry.admits_of_single hwide (hw ▸ hwide) hkind
        | true => exact Entry.admits_of_wide hwide (hw ▸ hwide)
  | two sight =>
      intro f st b st' _ _ hd
      cases hd

theorem follows_getField (index : UInt16) (hasObject : Bool) :
    Follows ds (getField ctx index hasObject i) (Checker.getField ctx index hasObject) Any := by
  refine .need fun m hm => .need fun t ht => ?_
  refine (follows_ofFormat hm).leftEq fun ds1 _ => ?_
  refine (follows_fieldType i ht).leftEq fun ds2 _ => ?_
  have hpush : ∀ ds3 object, Follows ds3 (push (.fieldGet m.className m.name t object))
      (Checker.push (.ofType t)) Any :=
    fun ds3 object => follows_push (Entry.says_ofType (e := .fieldGet ..) nofun)
  cases hasObject with
  | true =>
      show Follows ds2 _ (Checker.popN 1 >>= fun _ => _) Any
      rw [popN_one, bind_assoc]
      exact (follows_pop i).map (some ·) |>.bind fun ds3 object _ _ _ => hpush ds3 object
  | false => exact hpush ds2 none

theorem follows_putField (index : UInt16) (hasObject : Bool) :
    Follows ds (putField ctx index hasObject i) (Checker.putField ctx index hasObject) Any := by
  refine .need fun m hm => .need fun t ht => ?_
  refine (follows_ofFormat hm).leftEq fun ds1 _ => ?_
  refine (follows_fieldType i ht).leftEq fun ds2 _ => ?_
  refine (follows_pop i).bind fun ds3 value _ _ _ => ?_
  cases hasObject with
  | true =>
      show Follows ds3 _ (Checker.popN 1) Any
      rw [popN_one]
      exact (follows_pop i).map (some ·) |>.bind fun ds4 object _ _ _ => follows_emit ctx i _
  | false => exact follows_emit ctx i _

theorem follows_unary (build : Expr → Expr) (hty : ∀ e, (build e).ty = t) (hne : ∀ e id, build e ≠ .dupLoad id) :
    Follows ds (unary i build) (Checker.compute 1 t) Any := by
  unfold Checker.compute
  rw [popN_one, bind_assoc]
  refine (follows_pop i).bind fun ds1 e _ _ _ => ?_
  rw [← hty e]
  exact follows_push (Entry.says_ofType (hne e))

theorem follows_binary (build : Expr → Expr → Expr) (hty : ∀ l r, (build l r).ty = t)
    (hne : ∀ l r id, build l r ≠ .dupLoad id) : Follows ds (binary i build) (Checker.compute 2 t) Any := by
  unfold Checker.compute
  rw [popN_two, bind_assoc]
  refine (follows_pop i).bind fun ds1 right _ _ _ => ?_
  exact follows_unary i (build · right) (fun l => hty l right) (fun l => hne l right)

/-- A wide operand is not boolean, so the type of a wide operation is that of its kind. -/
theorem follows_arith (kind : ValueKind) (op : ArithOp) :
    Follows ds (binary i fun l r => .binary op (arithType kind op l r) l r) (Checker.arith kind) Any := by
  refine (follows_pop i).bind fun ds1 right _ _ _ => ?_
  refine (follows_pop i).bind fun ds2 left entry _ hs => .ensure fun hw => ?_
  rw [beq_iff_eq] at hw
  have htype : arithType kind op left right = .ofValueKind kind ∨
      (arithType kind op left right = .boolean ∧ left.isBoolean = true) := by
    unfold arithType
    split
    case h_4 => exact .inl rfl
    all_goals
      split
      · rename_i hb
        exact .inr ⟨rfl, (Bool.and_eq_true _ _ ▸ hb).1⟩
      · exact .inl rfl
  refine follows_push ?_
  beta_reduce
  rcases htype with ht | ⟨ht, hb⟩
  · rw [ht]
    exact Entry.says_ofType (e := .binary ..) nofun
  · have hbool : left.ty = .boolean := by simpa [Expr.isBoolean] using hb
    have hnarrow : (ErasedType.ofValueKind kind).isWide = false := by
      cases hk : (ErasedType.ofValueKind kind).isWide with
      | false => rfl
      | true => simpa [hbool, ErasedType.isWide] using hs.1.wide_or_unknown (hw.trans hk)
    have hentry : Entry.ofType (.ofValueKind kind) = .one := by cases kind <;> first | rfl | cases hnarrow
    rw [ht, hentry]
    exact Entry.says_ofType (e := .binary op .boolean left right) nofun

theorem follows_neg (kind : ValueKind) : Follows ds (unary i .neg) (Checker.neg kind) Any := by
  refine (follows_pop i).bind fun ds1 e entry _ hs => .ensure fun _ => ?_
  exact follows_push (says_dim hs.1 nofun)

theorem follows_finishCall {call} (hty : call.ty = t) (hne : ∀ id, call ≠ .dupLoad id) :
    Follows ds (finishCall ctx call t i) (Checker.result t) Any := by
  unfold finishCall Checker.result
  split
  · exact follows_emit ctx i _
  · rw [← hty]
    exact follows_push (Entry.says_ofType hne)

theorem follows_construct (className descriptor : String) (args : List Expr) (alloc : Nat) :
    Follows ds (construct ctx (.new className descriptor args) alloc i) (pure ()) Any := by
  intro f st b st' hle hf hd
  cases hd
  by_cases hany : f.stack.any (isAlloc alloc) = true
  · refine ⟨(), { f with
      stack := f.stack.map fun e => if isAlloc alloc e then .new className descriptor args else e },
      bind_ok (get_ok f) ?_, .refl _, ?_, trivial⟩
    · rw [if_pos hany]
      rfl
    · refine forall₂_map_left_iff.mpr (hf.imp fun e entry hs => ?_)
      split
      · rename_i halloc
        have hnarrow : entry.isWide = false := by
          cases hw : entry.isWide with
          | false => rfl
          | true =>
              cases e <;> first | cases halloc | skip
              simpa [Expr.ty, ErasedType.isWide] using hs.1.wide_or_unknown hw
        refine Entry.says_of_ty nofun (Entry.admits_of_single hnarrow rfl nofun) fun _ => ?_
        exact hnarrow.symm
      · exact hs
  · obtain ⟨_, f', hc, hle', hf', -⟩ := follows_emit ctx i (.expr (.new className descriptor args)) f st () st hle hf rfl
    refine ⟨(), f', bind_ok (get_ok f) ?_, hle', hf', trivial⟩
    rw [if_neg hany]
    exact hc

theorem follows_popArgs (params : List ErasedType) : Follows ds (popArgs params i) (Checker.popN params.length) Any :=
  (follows_popN i params.length).map _

theorem follows_takeCall {m : MemberRef} {t} (hm : (ctx.pool.memberRef index).toOption = some m)
    (ht : Descriptor.parseMethod? m.descriptor = some t) :
    Follows ds (takeCall ctx index i) (Checker.popN t.params.length) fun _ c _ => c.member = m ∧ c.type = t := by
  refine (follows_ofFormat hm).leftEq fun ds1 _ => ?_
  refine (follows_methodType i ht).leftEq fun ds2 _ => ?_
  intro f st b st' hle hf hd
  obtain ⟨args, f', hc, hle', hf', -⟩ := follows_popArgs i t.params f st b st' hle hf hd
  exact ⟨⟨m, t, args⟩, f', bind_ok hc rfl, hle', hf', rfl, rfl⟩

theorem follows_called (kind : InvokeKind) {m : MemberRef} {t}
    (ht : Descriptor.parseMethod? m.descriptor = some t)
    (hinit : (m.name != "<init>" || t.result == .void) = true) (receiver : Option Expr) (args : List Expr) :
    Follows ds (if m.name = "<init>" then match receiver with
        | some (.uninitNew className alloc) => construct ctx (.new className m.descriptor args) alloc i
        | _ => finishCall ctx (.call kind m.className m.name m.descriptor receiver args) t.result i
      else finishCall ctx (.call kind m.className m.name m.descriptor receiver args) t.result i)
      (Checker.result t.result) Any := by
  have hcall : Follows ds (finishCall ctx (.call kind m.className m.name m.descriptor receiver args) t.result i)
      (Checker.result t.result) Any := by
    refine follows_finishCall ctx i ?_ (by rintro id ⟨⟩)
    simp [Expr.ty, Expr.resultOf, ht]
  split
  · rename_i hname
    have hvoid : t.result = .void := by simpa [hname] using hinit
    split
    · rw [hvoid]
      exact follows_construct ctx i _ _ args _
    · exact hcall
  · exact hcall

theorem follows_invoke (kind : InvokeKind) (index : UInt16) :
    Follows ds (invoke ctx kind index i) (Checker.invoke ctx kind index) Any := by
  refine .need fun m hm => .need fun t ht => ?_
  refine (follows_takeCall ctx i hm ht).bind fun ds1 c _ _ ⟨hcm, hct⟩ => ?_
  obtain ⟨m', t', args⟩ := c
  obtain rfl : m' = m := hcm
  obtain rfl : t' = t := hct
  by_cases hk : kind = .static
  · simp only [hk]
    show Follows ds1 _ (Checker.ensure _ >>= fun _ => Checker.result t'.result) Any
    exact .ensure fun hinit => follows_called ctx i _ ht hinit none _
  · simp only [hk, if_false]
    rw [popN_one, bind_assoc]
    refine (follows_pop i).map (some ·) |>.bind fun ds2 receiver _ _ _ => ?_
    rw [pure_bind]
    exact .ensure fun hinit => follows_called ctx i _ ht hinit receiver _

theorem follows_invokeDynamic (index : UInt16) :
    Follows ds (invokeDynamic ctx index i) (Checker.invokeDynamic ctx index) Any := by
  refine .need fun site hsite => .need fun t ht => ?_
  refine (follows_ofFormat hsite).leftEq fun ds1 _ => ?_
  refine (follows_methodType i ht).leftEq fun ds2 _ => ?_
  refine (follows_popArgs i t.params).bind fun ds3 args _ _ _ => ?_
  refine follows_finishCall ctx i ?_ (by rintro id ⟨⟩)
  simp [Expr.ty, Expr.resultOf, ht]

theorem follows_popOnly : Follows ds (pop i) (Checker.popN 1) Any := by
  rw [popN_one]
  intro f st b st' hle hf hd
  obtain ⟨⟨entry, st1⟩, hpop, hd⟩ := Option.bind_eq_some_iff.mp hd
  obtain rfl : st1 = st' := congrArg Prod.snd (Option.some.inj hd)
  obtain ⟨e, f', hc, hle', hf', -⟩ := follows_pop i f st entry st1 hle hf hpop
  exact ⟨e, f', hc, hle', hf', trivial⟩

theorem follows_popTwo (g : Expr → Expr → α) : Follows ds (do
      let right ← pop i
      let left ← pop i
      return g left right) (Checker.popN 2) Any := by
  rw [popN_two]
  exact (follows_pop i).bind fun ds1 right _ _ _ => (follows_popOnly i).map _

theorem follows_popEmit (make : Expr → Stmt) (a : α) : Follows ds (do
      let e ← pop i
      emit ctx (make e) i
      return a) (Checker.popN 1) Any := by
  rw [popN_one]
  exact (follows_pop i).bind fun ds1 e _ _ _ => (follows_emit ctx i (make e)).map _

theorem follows_ofClass {n build c} (make : α → ErasedType → Expr)
    (hc : Follows ds c (Checker.popN n) Any) (hty : ∀ a t, (make a t).ty = build t)
    (hne : ∀ a t id, make a t ≠ .dupLoad id) : Follows ds (do
      let a ← c
      push (make a (← operandType ctx index))) (Checker.ofClass ctx index n build) Any := by
  refine hc.bind fun ds1 a _ _ _ => .need fun name hname => ?_
  refine (follows_operandType ctx hname).leftEq fun ds2 _ => ?_
  rw [← hty a]
  exact follows_push (Entry.says_ofType (hne a _))

theorem follows_new (index : UInt16) :
    Follows ds (do push (.uninitNew (← ofFormat (ctx.pool.className index)) i.offset))
      (Checker.ofClass ctx index 0 fun _ => .object) Any := by
  have hzero : Checker.popN 0 = pure () := rfl
  unfold Checker.ofClass
  rw [hzero, pure_bind]
  refine .need fun name hname => ?_
  refine (follows_ofFormat hname).leftEq fun ds1 _ => ?_
  exact follows_push (Entry.says_ofType (e := .uninitNew name i.offset) nofun)

theorem follows_arrayStore (kind : ArrayKind) : Follows ds (arrayStore ctx kind i) (Checker.popN 3) Any := by
  have hthree : Checker.popN 3 = Checker.pop >>= fun _ => Checker.popN 2 := by
    funext st
    rcases st with _ | ⟨a, _ | ⟨b, _ | ⟨c, st⟩⟩⟩ <;> rfl
  rw [hthree, popN_two, popN_one]
  refine (follows_pop i).bind fun ds1 value _ _ _ => ?_
  refine (follows_pop i).bind fun ds2 index _ _ _ => ?_
  exact (follows_pop i).bind fun ds3 array _ _ _ => follows_emit ctx i _

theorem follows_step : Follows ds (step ctx i) (Checker.step true ctx i) Any := by
  have hstay : ∀ {c : Sim Unit} {d : Checker Unit}, Follows ds c d Any → Follows ds (stay c) d Any :=
    fun h => h.map _
  have hnone : ∀ {exit : Option Exit}, Follows ds (pure exit) (pure ()) Any := .pure fun _ _ => trivial
  unfold step Checker.step
  cases i.op with
  | nop | goto t | jsr t | ret slot => exact hnone
  | nullConst => exact hstay (follows_push (Entry.says_ofType (e := .nullLit) nofun))
  | intConst v => exact hstay (follows_push (Entry.says_ofType (e := .intLit v) nofun))
  | longConst v => exact hstay (follows_push (Entry.says_ofType (e := .longLit _) nofun))
  | floatConst v => exact hstay (follows_push (Entry.says_ofType (e := .floatLit _) nofun))
  | doubleConst v => exact hstay (follows_push (Entry.says_ofType (e := .doubleLit _) nofun))
  | loadConst index => exact hstay (follows_constant ctx index false)
  | loadWideConst index => exact hstay (follows_constant ctx index true)
  | load kind slot => exact hstay (follows_load ctx i kind slot)
  | store kind slot => exact hstay (follows_store ctx i kind slot)
  | increment slot amount => exact hstay (follows_increment ctx i slot amount)
  | arrayLoad kind => exact hstay (follows_arrayLoad i kind)
  | arrayStore kind => exact hstay (follows_arrayStore ctx i kind)
  | pop | pop2 => exact hstay (follows_drop ctx i _ _)
  | dup | dupX1 | dupX2 | dup2 | dup2X1 | dup2X2 => exact hstay (follows_dup ctx i _ _ _)
  | swap => exact hstay (follows_swap i)
  | arith kind op => exact hstay (follows_arith i kind op)
  | neg kind => exact hstay (follows_neg i kind)
  | convert source target | narrow kind => exact hstay (follows_unary i (.cast _) (fun _ => rfl) nofun)
  | longCompare | floatCompare g | doubleCompare g => exact hstay (follows_binary i .cmpResult (fun _ _ => rfl) nofun)
  | ifZero op t | ifNull t | ifNonNull t | tableSwitch d low high ts | lookupSwitch d ps =>
      exact (follows_popOnly i).map _
  | ifIntCmp op t | ifRefCmp op t => exact follows_popTwo i _
  | leave kind =>
      cases kind with
      | none => exact (follows_emit ctx i _).map _
      | some kind => exact follows_popEmit ctx i _ _
  | throw => exact follows_popEmit ctx i _ _
  | monitorEnter | monitorExit => exact hstay (follows_popEmit ctx i _ _)
  | getStatic index => exact hstay (follows_getField ctx i index false)
  | getField index => exact hstay (follows_getField ctx i index true)
  | putStatic index => exact hstay (follows_putField ctx i index false)
  | putField index => exact hstay (follows_putField ctx i index true)
  | invokeVirtual index => exact hstay (follows_invoke ctx i .virtual index)
  | invokeSpecial index => exact hstay (follows_invoke ctx i .special index)
  | invokeStatic index => exact hstay (follows_invoke ctx i .static index)
  | invokeInterface index count => exact hstay (follows_invoke ctx i .interface index)
  | invokeDynamic index => exact hstay (follows_invokeDynamic ctx i index)
  | new index => exact hstay (follows_new ctx i index)
  | newArray code => exact hstay (follows_unary i (fun n => .newArray _ [n]) (fun _ => rfl) nofun)
  | newRefArray index =>
      exact hstay (follows_ofClass ctx (fun n t => .newArray (.array t) [n]) (follows_popOnly i) (fun _ _ => rfl) nofun)
  | newMultiArray index dimensions =>
      exact hstay (follows_ofClass ctx (fun dims t => .newArray t dims) (follows_popN i _) (fun _ _ => rfl) nofun)
  | arrayLength => exact hstay (follows_unary i .arrayLength (fun _ => rfl) nofun)
  | checkCast index =>
      exact hstay (follows_ofClass ctx (fun e t => .cast t e) (follows_popOnly i) (fun _ _ => rfl) nofun)
  | instanceOf index =>
      exact hstay (follows_ofClass ctx (fun e t => .instanceOf e t) (follows_popOnly i) (fun _ _ => rfl) nofun)

end

/-! ## Parts of a step -/

section

variable {i : Instruction} {f f' : Frame}

theorem stay_inv {c : Sim Unit} {exit} (h : stay c f = .ok (exit, f')) : exit = none ∧ c f = .ok ((), f') := by
  obtain ⟨⟨⟩, f1, hc, h⟩ := of_bind_ok h
  cases h
  exact ⟨rfl, hc⟩

theorem pop_inv (h : pop i f = .ok (e, f')) : ∃ rest, f.stack = e :: rest ∧ f' = { f with stack := rest } := by
  obtain ⟨_, _, hg, h⟩ := of_bind_ok h
  cases hg
  cases hs : f.stack with
  | nil =>
      rw [hs] at h
      cases h
  | cons x rest =>
      rw [hs] at h
      cases h
      exact ⟨rest, rfl, rfl⟩

theorem popN_inv {n} (h : popN n i f = .ok (es, f')) :
    ∃ rest, f.stack = es.reverse ++ rest ∧ es.length = n ∧ f' = { f with stack := rest } := by
  obtain ⟨_, _, hg, h⟩ := of_bind_ok h
  cases hg
  by_cases hn : f.stack.length < n
  · rw [if_pos hn] at h
    cases h
  · rw [if_neg hn] at h
    cases h
    exact ⟨f.stack.drop n, by simp, by simp; omega, rfl⟩

theorem pop_bind_inv {k : Expr → Sim α} {a} (h : (pop i >>= k) f = .ok (a, f')) :
    ∃ e rest, f.stack = e :: rest ∧ k e { f with stack := rest } = .ok (a, f') := by
  obtain ⟨e, f1, he, h⟩ := of_bind_ok h
  obtain ⟨rest, hs, rfl⟩ := pop_inv he
  exact ⟨e, rest, hs, h⟩

theorem unary_inv {build} (h : unary i build f = .ok ((), f')) :
    ∃ e rest, f.stack = e :: rest ∧ f' = { f with stack := build e :: rest } := by
  obtain ⟨e, rest, hs, h⟩ := pop_bind_inv h
  cases h
  exact ⟨e, rest, hs, rfl⟩

theorem pop_pop_inv {k : Expr → Expr → Sim α} {a} (h : (pop i >>= fun r => pop i >>= fun l => k l r) f = .ok (a, f')) :
    ∃ l r rest, f.stack = r :: l :: rest ∧ k l r { f with stack := rest } = .ok (a, f') := by
  obtain ⟨r, rest, hs, h⟩ := pop_bind_inv h
  obtain ⟨l, rest', rfl, h⟩ := pop_bind_inv h
  exact ⟨l, r, rest', hs, h⟩

theorem ofFormat_inv {x : Except FormatFault α} {a} (h : ofFormat x f = .ok (a, f')) :
    x.toOption = some a ∧ f' = f := by
  cases x with
  | error e => cases h
  | ok v =>
      cases h
      exact ⟨rfl, rfl⟩

theorem fieldType_inv {d} (h : fieldType d i f = .ok (t, f')) : Descriptor.parseType? d = some t ∧ f' = f := by
  unfold fieldType at h
  cases ht : Descriptor.parseType? d with
  | none =>
      rw [ht] at h
      cases h
  | some u =>
      rw [ht] at h
      cases h
      exact ⟨rfl, rfl⟩

theorem methodType_inv {d t} (h : methodType d i f = .ok (t, f')) : Descriptor.parseMethod? d = some t ∧ f' = f := by
  unfold methodType at h
  cases ht : Descriptor.parseMethod? d with
  | none =>
      rw [ht] at h
      cases h
  | some u =>
      rw [ht] at h
      cases h
      exact ⟨rfl, rfl⟩

theorem operandType_inv {ctx} (h : operandType ctx index f = .ok (t, f')) :
    ∃ name, (ctx.pool.className index).toOption = some name ∧ t = Descriptor.ofOperand name ∧ f' = f := by
  change (ofFormat (ctx.pool.className index) >>= fun name => pure (Descriptor.ofOperand name)) f =
    .ok (t, f') at h
  obtain ⟨name, f1, hn, ht⟩ := of_bind_ok h
  obtain ⟨hname, hf⟩ := ofFormat_inv hn
  cases ht
  exact ⟨name, hname, rfl, hf⟩

end

/-! ## Where a step goes -/

theorem terminator_step {ctx i f' exit} (h : step ctx i f = .ok (exit, f')) :
    (exit.getD (.ofTerminator i.next (.ofInstruction i))).terminator = (Terminator.ofInstruction i).onReturn := by
  unfold step at h
  unfold Terminator.ofInstruction
  cases hop : i.op with
  | leave kind =>
      simp only [hop] at h
      cases kind with
      | none =>
          cases h
          rfl
      | some kind =>
          obtain ⟨_, _, -, h⟩ := of_bind_ok h
          cases h
          rfl
  | _ =>
      simp only [hop] at h
      first
      | -- the instruction stays in the block
        rfl
      | cases h
        rfl
      | obtain ⟨_, _, -, h⟩ := of_bind_ok h
        cases h
        rfl
      | obtain ⟨_, _, -, h⟩ := of_bind_ok h
        obtain ⟨_, _, -, h⟩ := of_bind_ok h
        cases h
        rfl

end Sim

end JvmLift
