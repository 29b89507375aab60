import JvmLift.Proofs.Meaning.Frames
import JvmLift.Proofs.Meaning.Widths

/-!
# Stack instructions on frames

A stack instruction rearranges the entries of a frame as it rearranges the data on the operand stack.
Entries that are copied are duplicated, and entries that are dropped become statements if they call or
allocate.
-/
namespace JvmLift

open List

variable {V H : Type} {M : Model V H}

namespace Sim

/-! ## Entries that are dropped -/

/-- Entries are dropped one after the other; one that calls or allocates is kept as a statement. -/
inductive Dropped (ctx : MethodContext) (i : Instruction) : Frame → List Expr → Frame → Prop
  | nil {f} : Dropped ctx i f [] f
  | skip {e es f f'} (he : e.hasSideEffects = false) (h : Dropped ctx i f es f') : Dropped ctx i f (e :: es) f'
  | emit {e es f f'} (he : e.hasSideEffects = true) (h : Dropped ctx i (f.emitted ctx (.expr e) i) es f') :
      Dropped ctx i f (e :: es) f'

variable {ctx : MethodContext} {i : Instruction} {f f' : Frame}

theorem dropped_of_discardAll {es} (h : es.forM (discard ctx · i) f = .ok ((), f')) : Dropped ctx i f es f' := by
  induction es generalizing f with
  | nil =>
      cases h
      exact .nil
  | cons e es ih =>
      obtain ⟨⟨⟩, f1, hd, h⟩ := of_bind_ok h
      change (if e.hasSideEffects = true then _ else _ : Sim Unit) f = _ at hd
      cases he : e.hasSideEffects with
      | true =>
          rw [he] at hd
          cases hd
          exact .emit he (ih h)
      | false =>
          rw [he] at hd
          cases hd
          exact .skip he (ih h)

namespace Dropped

variable {es : List Expr}

theorem stack_eq (h : Dropped ctx i f es f') : f'.stack = f.stack := by
  induction h with
  | nil => rfl
  | skip _ _ ih | emit _ _ ih => exact ih

theorem tidy (h : Dropped ctx i f es f') (ht : f.Tidy) (hes : ∀ e ∈ es, f.Knows e) : f'.Tidy := by
  induction h with
  | nil => exact ht
  | skip _ _ ih =>
      simp only [mem_cons, forall_eq_or_imp] at hes
      exact ih ht hes.2
  | emit _ _ ih =>
      simp only [mem_cons, forall_eq_or_imp] at hes
      refine ih (ht.emitted ?_ (by simp [Stmt.written?]) rfl) hes.2
      intro e he
      rw [mem_singleton.mp he]
      exact hes.1

theorem exec (ds : Duplicates) (h : Dropped ctx i f es f')
    (hdrop : ∀ e ∈ es, e.isCalm = true ∨ e.hasSideEffects = true) {σ} {w w'}
    {data} (heval : M.evalList σ es w = (data, w')) :
    ∃ new, f'.out = f.out ++ new ∧ M.execAll ds σ new w = ⟨σ, w', none⟩ ∧
      ∀ ds', new.all (·.stmt.isCalm ds') = true → es.all Expr.isCalm = true := by
  induction h generalizing w data with
  | nil =>
      cases heval
      exact ⟨[], by simp, rfl, fun _ _ => rfl⟩
  | @skip e es f f' he _ ih =>
      simp only [mem_cons, forall_eq_or_imp] at hdrop
      have hcalm : e.isCalm = true := hdrop.1.resolve_right (by simp [he])
      obtain ⟨d, hd⟩ := Model.eval_calm (M := M) (σ := σ) hcalm
      simp only [Model.evalList, hd] at heval
      generalize hrest : M.evalList σ es w = r at heval
      cases heval
      obtain ⟨new, hout, hexec, hquiet⟩ := ih hdrop.2 hrest
      exact ⟨new, hout, hexec, fun ds' hnew => by simp [hcalm, hquiet ds' hnew]⟩
  | @emit e es f f' he _ ih =>
      simp only [mem_cons, forall_eq_or_imp] at hdrop
      simp only [Model.evalList] at heval
      generalize hrest : M.evalList σ es (M.eval σ e w).2 = r at heval
      cases heval
      obtain ⟨new, hout, hexec, hquiet⟩ := ih hdrop.2 hrest
      refine ⟨_ :: new, hout.trans (append_assoc ..), ?_, fun ds' hnew => ?_⟩
      · simpa [Model.execAll, Model.exec, Stmt.inputs, Stmt.operands, Model.evalList, Model.finish] using hexec
      · simp only [all_cons, Bool.and_eq_true] at hnew ⊢
        exact ⟨hnew.1, hquiet ds' hnew.2⟩

end Dropped

def popped (i : Instruction) (operation : String) (slots : Nat) (f : Frame) : List Expr :=
  match popSlots i operation slots f with
  | .ok (es, _) => es
  | .error _ => []

def dropped (i : Instruction) : Frame → List Expr :=
  match i.op with
  | .pop => popped i "pop" 1
  | .pop2 => popped i "pop2" 2
  | _ => fun _ => []

/-! ## Shapes -/

inductive Shuffled (ctx : MethodContext) (i : Instruction) (f : Frame) (s : OperandStack V) :
    Frame → OperandStack V → Prop
  | none : Shuffled ctx i f s f s
  | copy {top middle rest copies f1} {top' middle' rest' : OperandStack V} (hf : f.stack = top ++ (middle ++ rest))
      (hs : s = top' ++ (middle' ++ rest')) (htop : top'.length = top.length)
      (hmiddle : middle'.length = middle.length) (hcopy : Copied ctx i f top copies f1) :
      Shuffled ctx i f s { f1 with stack := copies ++ (middle ++ (copies ++ rest)) }
        (top' ++ (middle' ++ (top' ++ rest')))
  | drop {rest f1} {rest' : OperandStack V} (top : List Expr) (top' : OperandStack V)
      (hf : f.stack = top ++ rest) (hs : s = top' ++ rest') (htop : top'.length = top.length)
      (hdrop : dropped i f = top) (h : Dropped ctx i { f with stack := rest } top f1) :
      Shuffled ctx i f s f1 rest'
  | swap {a b rest} {a' b' : Bool × Datum V} {rest' : OperandStack V} (hop : i.op = .swap)
      (hf : f.stack = a :: b :: rest) (hs : s = a' :: b' :: rest') :
      Shuffled ctx i f s { f with stack := b :: a :: rest } (b' :: a' :: rest')

/-! ## Instructions in lockstep -/

/-- A place of a stack: the expression there, what the discipline says of it, and the datum. -/
structure Cell (V : Type) where
  expr : Expr
  entry : Entry
  datum : Datum V

@[simp] def Cell.sized (c : Cell V) : Bool × Datum V := (c.entry.isWide, c.datum)

def Truthful (ds : Duplicates) (cs : List (Cell V)) : Prop := ∀ c ∈ cs, c.entry.Says ds c.expr

variable {cs : List (Cell V)}

theorem exists_cells {ds} {stack} {st} {s}
    (h : Fits ds stack st) (hs : s.map (·.1) = st.map Entry.isWide) : ∃ cs : List (Cell V), Truthful ds cs ∧
      stack = cs.map Cell.expr ∧ st = cs.map Cell.entry ∧ s = cs.map Cell.sized := by
  induction h generalizing s with
  | nil => exact ⟨[], by simp [Truthful], rfl, rfl, map_eq_nil_iff.mp hs⟩
  | @cons e entry _ _ hsaid _ ih =>
      obtain ⟨⟨wide, d⟩, s, rfl, rfl, hrest⟩ := map_eq_cons_iff.mp hs
      obtain ⟨cs, hcs, rfl, rfl, rfl⟩ := ih hrest
      exact ⟨⟨e, entry, d⟩ :: cs, forall_mem_cons.mpr ⟨hsaid, hcs⟩, rfl, rfl, rfl⟩

theorem Shuffled.ofCopied {stack copies} {f1} (top middle rest : List (Cell V))
    (hcopy : Copied ctx i { f with stack } (top.map Cell.expr) copies f1) :
    Shuffled ctx i { f with stack := (top ++ (middle ++ rest)).map Cell.expr }
      ((top ++ (middle ++ rest)).map Cell.sized)
      { f1 with stack := copies ++ (middle.map Cell.expr ++ (copies ++ rest.map Cell.expr)) }
      ((top ++ (middle ++ (top ++ rest))).map Cell.sized) := by
  have hsplit {α : Type} (g : Cell V → α) (cs : List (Cell V)) :
      (top ++ (middle ++ cs)).map g = top.map g ++ (middle.map g ++ cs.map g) := by simp
  have hshuffled := Shuffled.copy (hsplit Cell.expr rest) (hsplit Cell.sized rest)
    (by simp) (by simp) (hcopy.withStack _)
  simpa only [map_append] using hshuffled

section

variable {α β : Type} {r : α × Frame} {q : β × List Entry} {l : Entry → Checker β} {k : Expr → Sim α}

theorem pop_cell (hd : (Checker.pop >>= l) (cs.map Cell.entry) = some q)
    (hc : (pop i >>= k) { f with stack := cs.map Cell.expr } = .ok r) : ∃ c rest, cs = c :: rest ∧
      l c.entry (rest.map Cell.entry) = some q ∧ k c.expr { f with stack := rest.map Cell.expr } = .ok r := by
  cases cs with
  | nil => cases hd
  | cons c rest => exact ⟨c, rest, rfl, hd, hc⟩

theorem popOne_cell {operation} (hd : (Checker.popOne true >>= l) (cs.map Cell.entry) = some q)
    (hc : (popSingle i operation >>= k) { f with stack := cs.map Cell.expr } = .ok r) :
    ∃ c rest, cs = c :: rest ∧ c.entry.isWide = false ∧
      l c.entry (rest.map Cell.entry) = some q ∧ k c.expr { f with stack := rest.map Cell.expr } = .ok r := by
  unfold Checker.popOne at hd
  unfold popSingle at hc
  simp only [bind_assoc] at hd hc
  obtain ⟨c, rest, rfl, hd, hc⟩ := pop_cell hd hc
  obtain ⟨hw, hd⟩ := Checker.ensure_bind (Checker.look_bind hd).2
  obtain ⟨_, _, hget, hc⟩ := of_bind_ok hc
  cases hget
  refine ⟨c, rest, rfl, by simpa using hw, hd, ?_⟩
  split at hc
  · cases hc
  · exact hc

end

theorem popSlots_cell {operation slots es entries st'} (h : Truthful f.duplicates cs)
    (hd : Checker.popSlots true slots (cs.map Cell.entry) = some (entries, st'))
    (hc : popSlots i operation slots { f with stack := cs.map Cell.expr } = .ok (es, f')) :
    ∃ top rest, cs = top ++ rest ∧ entries = top.map Cell.entry ∧ st' = rest.map Cell.entry ∧
      es = top.map Cell.expr ∧ f' = { f with stack := rest.map Cell.expr } ∧
      OperandStack.takeSlots slots (cs.map Cell.sized) = some (top.map Cell.sized, rest.map Cell.sized) := by
  induction slots using Nat.twoStepInduction generalizing cs es entries with
  | zero =>
      cases hd
      cases hc
      exact ⟨[], cs, rfl, rfl, rfl, rfl, rfl, by simp [OperandStack.takeSlots]⟩
  | one =>
      obtain ⟨c, cs, rfl, hw, hd, hc⟩ := popOne_cell hd hc
      cases hd
      cases hc
      exact ⟨[c], cs, rfl, rfl, rfl, rfl, rfl, by simp [OperandStack.takeSlots, hw]⟩
  | more slots ih ih' =>
      obtain ⟨c, cs, rfl, hd, hc⟩ := pop_cell hd hc
      obtain ⟨hsaid, h⟩ := forall_mem_cons.mp h
      obtain ⟨hclear, hd⟩ := Checker.look_bind hd
      obtain ⟨_, _, hget, hc⟩ := of_bind_ok hc
      cases hget
      obtain ⟨⟨_, _⟩, hd, hentries⟩ := Option.bind_eq_some_iff.mp hd
      obtain ⟨_, _, hc, hes⟩ := of_bind_ok hc
      cases hentries
      cases hes
      have hwide : { f with stack := cs.map Cell.expr }.isWide c.expr = c.entry.isWide := (hsaid.2 hclear).isWide
      rw [hwide] at hc
      cases hw : c.entry.isWide with
      | true =>
          rw [hw] at hd hc
          obtain ⟨top, rest, rfl, rfl, rfl, rfl, rfl, htake⟩ := ih h hd hc
          exact ⟨c :: top, rest, rfl, rfl, rfl, rfl, rfl, by simp_all [OperandStack.takeSlots]⟩
      | false =>
          rw [hw] at hd hc
          obtain ⟨top, rest, rfl, rfl, rfl, rfl, rfl, htake⟩ := ih' h hd hc
          exact ⟨c :: top, rest, rfl, rfl, rfl, rfl, rfl, by simp_all [OperandStack.takeSlots]⟩

def Shuffles (V : Type) (ctx : MethodContext) (i : Instruction) (c : Sim Unit) (d : Checker Unit)
    (form : OperandStack V → Option (OperandStack V)) : Prop :=
  ∀ (f f' : Frame) (cs : List (Cell V)) st', Truthful f.duplicates cs → d (cs.map Cell.entry) = some ((), st') →
    c { f with stack := cs.map Cell.expr } = .ok ((), f') → ∃ s', form (cs.map Cell.sized) = some s' ∧
      Shuffled ctx i { f with stack := cs.map Cell.expr } (cs.map Cell.sized) f' s' ∧
      s'.map (·.1) = st'.map Entry.isWide

theorem shuffles_dup (operation : String) (copied under : Nat) :
    Shuffles V ctx i (dup ctx operation copied under i) (Checker.dup true copied under)
      (OperandStack.dup copied under) := by
  intro f f' cs st' h hd hc
  obtain ⟨⟨_, _⟩, hd1, hd⟩ := Option.bind_eq_some_iff.mp hd
  obtain ⟨_, _, hc1, hc⟩ := of_bind_ok hc
  obtain ⟨top, cs, rfl, rfl, rfl, rfl, rfl, htop⟩ := popSlots_cell h hd1 hc1
  obtain ⟨⟨_, _⟩, hd2, hd⟩ := Option.bind_eq_some_iff.mp hd
  obtain ⟨_, _, hc2, hc⟩ := of_bind_ok hc
  obtain ⟨middle, rest, rfl, rfl, rfl, rfl, rfl, hmiddle⟩ :=
    popSlots_cell (fun c hc => h c (mem_append_right _ hc)) hd2 hc2
  obtain ⟨copies, f1, hcopies, hc⟩ := of_bind_ok hc
  cases hd
  cases hc
  have hcopied := copied_of_duplicateAll hcopies
  refine ⟨(top ++ (middle ++ (top ++ rest))).map Cell.sized, ?_, ?_, ?_⟩
  · rw [map_append] at htop hmiddle
    simp_all [OperandStack.dup]
  · simpa [hcopied.stack_eq] using Shuffled.ofCopied top middle rest hcopied
  · simp [Function.comp_def]

theorem shuffles_swap (hop : i.op = .swap) : Shuffles V ctx i (Sim.swap i) (Checker.swap true) OperandStack.swap := by
  intro f f' cs st' h hd hc
  obtain ⟨a, cs, rfl, ha, hd, hc⟩ := popOne_cell hd hc
  obtain ⟨b, cs, rfl, hb, hd, hc⟩ := popOne_cell hd hc
  cases hd
  cases hc
  exact ⟨(b :: a :: cs).map Cell.sized, by simp [OperandStack.swap, ha, hb], .swap hop rfl rfl,
    by simp⟩

theorem shuffles_drop {operation slots} (hop : dropped i = popped i operation slots) :
    Shuffles V ctx i (drop ctx operation slots i) (Checker.drop true slots) (OperandStack.pop slots) := by
  intro f f' cs st' h hd hc
  obtain ⟨⟨_, _⟩, hd1, hd⟩ := Option.bind_eq_some_iff.mp hd
  obtain ⟨es, _, hc1, hc⟩ := of_bind_ok hc
  have hdropped : dropped i { f with stack := cs.map Cell.expr } = es := by rw [hop, popped, hc1]
  obtain ⟨top, rest, rfl, rfl, rfl, rfl, rfl, htop⟩ := popSlots_cell h hd1 hc1
  cases hd
  exact ⟨rest.map Cell.sized, congrArg (Option.map Prod.snd) htop,
    .drop _ (top.map Cell.sized) map_append map_append (by simp) hdropped (dropped_of_discardAll hc), by simp⟩

theorem shuffles_step {st st'} {s} {form} (hfits : f.Fits st) (hsized : s.map (·.1) = st.map Entry.isWide)
    (hshuffle : i.op.isShuffle = true) (hb : M.behaviour ctx i = some (.shuffle form))
    (hd : Checker.step true ctx i st = some ((), st')) (hc : step ctx i f = .ok (none, f')) :
    ∃ s', form s = some s' ∧ Shuffled ctx i f s f' s' ∧ s'.map (·.1) = st'.map Entry.isWide := by
  have hstay {c : Sim Unit} {d : Checker Unit} (h : Shuffles V ctx i c d form) (hc : stay c f = .ok (none, f'))
      (hd : d st = some ((), st')) :
      ∃ s', form s = some s' ∧ Shuffled ctx i f s f' s' ∧ s'.map (·.1) = st'.map Entry.isWide := by
    obtain ⟨cs, hcs, hstack, rfl, rfl⟩ := exists_cells hfits hsized
    have hf : { f with stack := cs.map Cell.expr } = f := by rw [← hstack]
    have hshuffled := h f f' cs st' hcs hd
    rw [hf] at hshuffled
    exact hshuffled (stay_inv hc).2
  unfold Model.behaviour at hb
  unfold Checker.step at hd
  unfold step at hc
  cases hop : i.op <;> rw [hop] at hshuffle <;> try cases hshuffle
  all_goals
    simp only [hop] at hb hd hc
    cases hb
  case nop =>
    cases hd
    cases hc
    exact ⟨s, rfl, .none, hsized⟩
  case pop | pop2 => exact hstay (shuffles_drop (by rw [dropped, hop])) hc hd
  case dup | dupX1 | dupX2 | dup2 | dup2X1 | dup2X2 => exact hstay (shuffles_dup _ _ _) hc hd
  case swap => exact hstay (shuffles_swap hop) hc hd

end Sim

end JvmLift
