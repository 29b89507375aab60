import JvmLift.Proofs.Block.Simulate
import JvmLift.Proofs.Meaning.Steps

/-!
# Blocks in step with the machine

A run over the instructions of a block keeps a frame in step with the machine, as long as duplicates are still
computed where they stand.
-/
namespace JvmLift

open List

variable {V H : Type} {M : Model V H} {ctx : MethodContext} {i : Instruction} {f f' : Frame}
  {ds : Duplicates} {σ : Env V} {w : World V H} {m : Machine V H}

/-! ## Frames stay tidy -/

namespace Frame

theorem Tidy.taken (ht : f.Tidy) {l rest : List Expr} {s} (hl : ∀ e ∈ l, f.Knows e) (hrest : ∀ e ∈ rest, f.Knows e)
    (hwithin : ∀ temps dups, (∀ a ∈ l, a.Within temps dups) → ∀ e ∈ s.operands, e.Within temps dups)
    (hwritten : s.written? = none) (hdup : ∀ id, s ≠ .dupStore id) :
    (Frame.emitted { f with stack := rest } ctx s i).Tidy := by
  refine Tidy.emitted (ht.withStack hrest) (hwithin _ _ hl) ?_ (Stmt.copyId?_eq_none hdup)
  rw [hwritten]
  exact nofun

theorem knows_slot (f : Frame) {v slot} (hv : v.IsSlot slot) : f.Knows (.localVar v) := by
  intro x hx
  rw [mem_singleton.mp hx]
  exact Or.inl ⟨congrArg Prod.fst hv.1, hv.2⟩

end Frame

variable {b : Behaviour V H} {exit : Option Exit}

theorem Moves.tidy (h : Moves M ctx i f b f' exit) (ht : f.Tidy) (hcount : f'.out.length < 65536)
    (hshuffle : b.sizes? ≠ none) : f'.Tidy ∧ ∀ x ∈ exit, ∀ e ∈ x.operand?, f'.Knows e := by
  have hknows := ht.stack
  cases h with
  | compute hs he _ =>
      simp only [hs, mem_append, mem_reverse, or_imp, forall_and] at hknows
      refine ⟨ht.withStack ?_, by simp⟩
      simp only [mem_cons, forall_eq_or_imp]
      exact ⟨he.within _ _ hknows.1, hknows.2⟩
  | perform hs hp =>
      simp only [hs, mem_append, mem_reverse, or_imp, forall_and] at hknows
      exact ⟨ht.taken hknows.1 hknows.2 hp.within hp.written (Model.ne_dupStore hp.acts), by simp⟩
  | decide hs hd =>
      simp only [hs, mem_append, mem_reverse, or_imp, forall_and] at hknows
      refine ⟨ht.withStack hknows.2, ?_⟩
      rintro x ⟨⟩
      exact hd.within _ _ hknows.1
  | leave hs hl hx =>
      simp only [hs, mem_append, mem_reverse, or_imp, forall_and] at hknows
      refine ⟨ht.taken hknows.1 hknows.2 hl.within hl.written hl.dup, ?_⟩
      simp [hx]
  | load hv =>
      refine ⟨ht.withStack ?_, by simp⟩
      simp only [mem_cons, forall_eq_or_imp]
      exact ⟨f.knows_slot hv, hknows⟩
  | loadSelf _ =>
      refine ⟨ht.withStack ?_, by simp⟩
      simp only [mem_cons, forall_eq_or_imp]
      exact ⟨by simp [Expr.Within, Expr.nodes, Expr.LeafWithin], hknows⟩
  | store _ hv hs hspill =>
      simp only [hs, mem_cons, forall_eq_or_imp] at hknows
      simp only [Frame.emitted, length_append] at hcount
      obtain ⟨ht', hle⟩ := Sim.tidy_spillReaders hspill (ht.withStack hknows.2) (by omega)
      refine ⟨ht'.emitted ?_ ?_ rfl, by simp⟩
      · intro e he
        rw [mem_singleton.mp he]
        exact Expr.within_retype (hle _ hknows.1) _
      · rintro u ⟨⟩
        exact Frame.knows_slot _ hv
  | increment _ hv hspill =>
      simp only [Frame.emitted, length_append] at hcount
      obtain ⟨ht', -⟩ := Sim.tidy_spillReaders hspill ht (by omega)
      refine ⟨ht'.emitted (by simp [Stmt.operands]) ?_ rfl, by simp⟩
      rintro u ⟨⟩
      exact Frame.knows_slot _ hv
  | shuffle _ _ => exact absurd rfl hshuffle
  | construct hs he _ _ =>
      simp only [hs, mem_append, mem_reverse, mem_cons, or_imp, forall_and] at hknows
      refine ⟨ht.withStack fun e he' => ?_, by simp⟩
      obtain ⟨x, hx, rfl⟩ := mem_map.mp he'
      split
      · exact he.within _ _ hknows.1
      · exact hknows.2.2 x hx
  | constructOnly hs hp _ =>
      simp only [hs, mem_append, mem_reverse, mem_cons, or_imp, forall_and] at hknows
      exact ⟨ht.taken hknows.1 hknows.2.2 hp.within hp.written (Model.ne_dupStore hp.acts), by simp⟩
  | initObject hs _ hp =>
      simp only [hs, mem_append, mem_reverse, mem_cons, or_imp, forall_and, forall_eq] at hknows
      refine ⟨ht.taken ?_ hknows.2.2 hp.within hp.written (Model.ne_dupStore hp.acts), by simp⟩
      simp only [mem_cons, forall_eq_or_imp]
      exact ⟨hknows.2.1, hknows.1⟩

theorem Sim.Shuffled.tidy {s s' : OperandStack V} (h : Sim.Shuffled ctx i f s f' s') (ht : f.Tidy) : f'.Tidy := by
  have hknows := ht.stack
  cases h with
  | none => exact ht
  | copy hf _ _ _ hcopy =>
      simp only [hf, mem_append, or_imp, forall_and] at hknows
      obtain ⟨ht', hcopies⟩ := hcopy.tidy ht hknows.1
      refine ht'.withStack ?_
      simp only [mem_append, or_imp, forall_and]
      exact ⟨hcopies, fun e he => hcopy.knows (hknows.2.1 e he), hcopies, fun e he => hcopy.knows (hknows.2.2 e he)⟩
  | drop _ _ hf _ _ _ hdrop =>
      simp only [hf, mem_append, or_imp, forall_and] at hknows
      exact hdrop.tidy (ht.withStack hknows.2) hknows.1
  | swap _ hf _ =>
      simp only [hf, mem_cons, forall_eq_or_imp] at hknows
      refine ht.withStack ?_
      simp only [mem_cons, forall_eq_or_imp]
      exact ⟨hknows.2.1, hknows.1, hknows.2.2⟩

/-! ## One step -/

namespace Model

structure InStep (M : Model V H) (ctx : MethodContext) (f : Frame) (st : List Entry) (σ : Env V)
    (w : World V H) (m : Machine V H) : Prop extends M.Agrees ctx f σ w m where
  tidy : f.Tidy
  fits : f.Fits st
  sized : m.Sized st

theorem inOrder_none (h : Sim.inOrder f f' none = true) : f.quietSince f' = true ∨ f'.stack.all Expr.isCalm = true := by
  simpa [Sim.inOrder] using h

theorem calm_of_inOrder {rest s} (hacts : ∀ ds, s.isCalm ds = false)
    (h : Sim.inOrder f (Frame.emitted { f with stack := rest } ctx s i) none = true) :
    rest.all Expr.isCalm = true := by
  refine (inOrder_none h).resolve_left fun hquiet => ?_
  rw [Frame.quietSince_append rfl] at hquiet
  simp [hacts] at hquiet

end Model

namespace Sim

variable {index : UInt16}

theorem finished_of_allows (h : allows ctx i f = true) (hcast : i.op.isCast = true) :
    f.stack.head?.any Expr.isUninit = false := by
  cases hop : i.op with
  | checkCast _ | convert _ _ | narrow _ => simpa [allows, hop] using h
  | _ =>
      rw [hop] at hcast
      cases hcast

theorem mayCall_of_allows (h : allows ctx i f = true) (hindex : calledIndex? i.op = some index) :
    mayCall ctx index i f = true := by
  cases hop : i.op with
  | invokeVirtual _ | invokeSpecial _ | invokeStatic _ | invokeInterface _ _ =>
      rw [hop] at hindex
      cases hindex
      simpa [allows, hop, calledIndex?] using h
  | _ =>
      rw [hop] at hindex
      cases hindex

theorem mayDrop_of_allows (h : allows ctx i f = true) : mayDrop (dropped i f) = true := by
  cases hop : i.op with
  | pop | pop2 => simpa [allows, hop] using h
  | _ =>
      rw [dropped, hop]
      rfl

variable {st st' : List Entry}

theorem void_of_step {callee t}
    (h : Checker.step true ctx i st = some ((), st')) (hindex : calledIndex? i.op = some index)
    (hm : (ctx.pool.memberRef index).toOption = some callee)
    (ht : Descriptor.parseMethod? callee.descriptor = some t) (hname : callee.name = "<init>") : t.result = .void := by
  unfold Checker.step at h
  cases hop : i.op with
  | invokeVirtual _ | invokeSpecial _ | invokeStatic _ | invokeInterface _ _ =>
      rw [hop] at hindex
      cases hindex
      simp only [hop] at h
      exact Checker.void_of_invoke hm ht hname h
  | _ =>
      rw [hop] at hindex
      cases hindex

end Sim

theorem Model.regular_of_allows (h : Sim.allows ctx i f = true) (hcheck : Checker.step true ctx i st = some ((), st'))
    (hordered : i.op.isThreeWay = true → ∀ l r, M.unordered l r = false) : Regular M ctx i f where
  jsr t hop := by simp [Sim.allows, hop] at h
  ret slot hop := by simp [Sim.allows, hop] at h
  ordered := hordered
  sane index c f1 hindex hcall := by
    have hmay := Sim.mayCall_of_allows h hindex
    simp only [Sim.mayCall, hcall, Bool.and_eq_true] at hmay
    exact hmay.1
  void index callee t hindex hm ht hname := Sim.void_of_step hcheck hindex hm ht hname
  once index c f1 name alloc rest hindex hcall hstack := by
    have hmay := Sim.mayCall_of_allows h hindex
    simp only [Sim.mayCall, hcall, hstack, Bool.and_eq_true] at hmay
    exact hmay.2

theorem Moves.advances (ds : Duplicates) (h : Moves M ctx i f b f' none) (hag : M.Agrees ctx f σ w m)
    (ht : f.Tidy) (hcount : f'.out.length < 65536) (hshuffle : b.sizes? ≠ none)
    (hallows : Sim.allows ctx i f = true) (horder : Sim.inOrder f f' none = true) :
    ∃ m', m.apply M b = some (m', none) ∧ M.Advances ctx ds f f' σ w m' := by
  cases h with
  | compute hs he hshows => exact Model.advances_compute hag hs he (hshows (Sim.finished_of_allows hallows))
  | perform hs hp =>
      obtain ⟨top, below, -, htake, hadv⟩ :=
        Model.advances_perform ds hag hs hp (Model.calm_of_inOrder hp.acts horder)
      exact ⟨_, by simp [Machine.apply, htake], hadv⟩
  | load hv => exact ⟨_, rfl, Model.advances_load hag hv⟩
  | loadSelf hstatic => exact ⟨_, rfl, Model.advances_loadSelf hag hstatic⟩
  | store hop hv hs hspill =>
      simp only [Frame.emitted, length_append] at hcount
      simp only [Sim.allows, hop, hs, Bool.and_eq_true, Bool.not_eq_true'] at hallows
      exact Model.advances_store hag ht hv hs hspill (by omega) hallows.1 hallows.2 (Model.inOrder_none horder)
  | increment hop hv hspill =>
      simp only [Frame.emitted, length_append] at hcount
      simp only [Sim.allows, hop] at hallows
      exact Model.advances_increment hag ht hv hspill (by omega) hallows (Model.inOrder_none horder)
  | shuffle _ _ => exact absurd rfl hshuffle
  | construct hs he hany honce => exact Model.advances_construct hag hs he hany honce
  | constructOnly hs hp hany =>
      exact Model.advances_constructOnly hag hs hp hany (Model.calm_of_inOrder hp.acts horder)
  | initObject hs hr hp => exact Model.advances_initObject hag hs hr hp (Model.calm_of_inOrder hp.acts horder)

theorem Sim.Shuffled.advances {s'} (h : Sim.Shuffled ctx i f m.stack f' s')
    (hag : M.Agrees ctx f σ w m) (ht : f.Tidy) (hallows : Sim.allows ctx i f = true)
    (horder : Sim.inOrder f f' Option.none = true) (hds : f'.duplicates.Le ds) :
    M.Advances ctx ds f f' σ w { m with stack := s' } := by
  cases h with
  | none => exact Model.Agrees.advances hag rfl
  | copy hf hs htop hmiddle hcopy =>
      refine Model.advances_copy hag ht hf hs htop hmiddle hcopy hds ((Model.inOrder_none horder).imp_right fun hcalm => ?_)
      simp only [all_append, Bool.and_eq_true] at hcalm ⊢
      exact ⟨hcalm.2.1, hcalm.2.2.2⟩
  | drop _ _ hf hs htop hdrop h =>
      refine Model.advances_drop hag hf hs htop (hdrop ▸ Sim.mayDrop_of_allows hallows) h
        ((Model.inOrder_none horder).imp_right fun hcalm => ?_)
      rwa [h.stack_eq] at hcalm
  | swap hop hf hs =>
      refine Model.advances_swap hag hf hs ?_
      simpa [Sim.allows, hop, hf] using hallows

theorem Moves.departs (ds : Duplicates) {x} (h : Moves M ctx i f b f' (some x)) (hag : M.Agrees ctx f σ w m)
    (hcalm : f'.stack.all Expr.isCalm = true) : ∃ m' d new, m.apply M b = some (m', some d) ∧ f'.out = f.out ++ new ∧
    M.conclude (M.execAll ds σ new w) x = ⟨m'.slots, m'.world, some d⟩ := by
  cases h with
  | decide hs hd =>
      obtain ⟨top, below, w1, -, htake, hrest, hargs, -⟩ := hag.operands hs
      obtain ⟨rfl, -⟩ := hrest.calm hcalm
      refine ⟨⟨below, m.slots, m.world⟩, _, [], by simp [Machine.apply, htake]; rfl, by simp, ?_⟩
      simp [Model.execAll, Model.conclude, hd.decide, hargs, hag.slots]
  | leave hs hl _ =>
      obtain ⟨top, below, w1, -, htake, hrest, hargs, -⟩ := hag.operands hs
      obtain ⟨rfl, -⟩ := hrest.calm hcalm
      refine ⟨⟨below, m.slots, m.world⟩, _, _, by simp [Machine.apply, htake]; rfl, rfl, ?_⟩
      simp [Model.execAll, Model.conclude, hl.exec, hargs, hag.slots]

namespace Model

theorem InStep.step (ds : Duplicates) {st st' : List Entry} (h : M.InStep ctx f st σ w m) (hlocals : ctx.locals = .empty)
    (hordered : i.op.isThreeWay = true → ∀ l r, M.unordered l r = false)
    (hcheck : Checker.step true ctx i st = some ((), st')) (hstep : Sim.step ctx i f = .ok (none, f'))
    (hallows : Sim.allows ctx i f = true) (horder : Sim.inOrder f f' none = true)
    (hcount : f'.out.length < 65536) (hds : f'.duplicates.Le ds) :
    ∃ m' new σ' w', m.step M ctx i = some (m', none) ∧ f'.out = f.out ++ new ∧
      M.execAll ds σ new w = ⟨σ', w', none⟩ ∧ M.InStep ctx f' st' σ' w' m' := by
  obtain ⟨_, _, hsim, -, hfits, -⟩ := Sim.follows_step ctx i f st () st' (.refl _) h.fits hcheck
  cases hstep.symm.trans hsim
  obtain ⟨b, hb, hmoves⟩ := moves_step (regular_of_allows hallows hcheck hordered) hlocals h.stack.pushable hstep
  have hmstep : m.step M ctx i = m.apply M b := by rw [Machine.step, hb, Option.bind_some]
  rw [hmstep]
  by_cases hshuffle : b.sizes? = none
  · cases hmoves with
    | shuffle hop _ =>
        obtain ⟨s', hform, hshuffled, hsized⟩ := Sim.shuffles_step h.fits h.sized hop hb hcheck hstep
        obtain ⟨new, σ', w', hout, hexec, hag⟩ := hshuffled.advances h.toAgrees h.tidy hallows horder hds
        exact ⟨{ m with stack := s' }, new, σ', w', by simp [Machine.apply, hform], hout, hexec, hag,
          hshuffled.tidy h.tidy, hfits, hsized⟩
    | _ => cases hshuffle
  · obtain ⟨m', happly, new, σ', w', hout, hexec, hag⟩ :=
      hmoves.advances ds h.toAgrees h.tidy hcount hshuffle hallows horder
    exact ⟨m', new, σ', w', happly, hout, hexec, hag, (hmoves.tidy h.tidy hcount hshuffle).1, hfits,
      h.sized.step hb hshuffle happly hcheck⟩

theorem InStep.leave (ds : Duplicates) {x} (h : M.InStep ctx f st σ w m) (hlocals : ctx.locals = .empty)
    (hordered : i.op.isThreeWay = true → ∀ l r, M.unordered l r = false)
    (hcheck : Checker.step true ctx i st = some ((), st')) (hstep : Sim.step ctx i f = .ok (some x, f'))
    (hallows : Sim.allows ctx i f = true) (horder : Sim.inOrder f f' (some x) = true)
    (hcount : f'.out.length < 65536) : f'.Tidy ∧ (∀ e ∈ x.operand?, f'.Knows e) ∧
    ∃ m' d new, m.step M ctx i = some (m', some d) ∧ f'.out = f.out ++ new ∧
    M.conclude (M.execAll ds σ new w) x = ⟨m'.slots, m'.world, some d⟩ := by
  obtain ⟨b, hb, hmoves⟩ := moves_step (regular_of_allows hallows hcheck hordered) hlocals h.stack.pushable hstep
  have hshuffle : b.sizes? ≠ none := by cases hmoves <;> exact nofun
  obtain ⟨ht, hx⟩ := hmoves.tidy h.tidy hcount hshuffle
  obtain ⟨m', d, new, happly, hout, hleft⟩ := hmoves.departs ds h.toAgrees (by simpa [Sim.inOrder] using horder)
  refine ⟨ht, hx x rfl, m', d, new, ?_, hout, hleft⟩
  rw [Machine.step, hb, Option.bind_some, happly]

end Model

/-! ## Runs -/

namespace Sim

theorem ofInstruction_of_step (h : step ctx i f = .ok (none, f')) (hallows : allows ctx i f = true) :
    Terminator.ofInstruction i = .fallThrough i.next := by
  unfold step at h
  unfold Terminator.ofInstruction
  cases hop : i.op with
  | jsr _ | ret _ => simp [allows, hop] at hallows
  | leave kind =>
      simp only [hop] at h
      cases kind with
      | none => cases h
      | some kind =>
          obtain ⟨_, _, -, h⟩ := of_bind_ok h
          cases h
  | ifIntCmp _ _ | ifRefCmp _ _ =>
      simp only [hop] at h
      obtain ⟨_, _, -, h⟩ := of_bind_ok h
      obtain ⟨_, _, -, h⟩ := of_bind_ok h
      cases h
  | ifZero _ _ | ifNull _ | ifNonNull _ | tableSwitch _ _ _ _ | lookupSwitch _ _ | throw =>
      simp only [hop] at h
      obtain ⟨_, _, -, h⟩ := of_bind_ok h
      cases h
  | goto _ =>
      simp only [hop] at h
      cases h
  | _ => rfl

theorem exit_of_fallThrough (h : step ctx i f = .ok (exit, f'))
    (hfall : Terminator.ofInstruction i = .fallThrough i.next) : exit = none := by
  unfold step at h
  unfold Terminator.ofInstruction at hfall
  cases hop : i.op with
  | nop =>
      simp only [hop] at h
      cases h
      rfl
  | jsr _ | ret _ | leave _ | ifIntCmp _ _ | ifRefCmp _ _ | ifZero _ _ | ifNull _ | ifNonNull _
  | tableSwitch _ _ _ _ | lookupSwitch _ _ | throw | goto _ =>
      simp only [hop] at hfall
      cases hfall
  | _ =>
      simp only [hop] at h
      exact (stay_inv h).1

end Sim

namespace Model

theorem InStep.run {instrs last st out exit' asked asked'} (h : M.InStep ctx f st σ w m) (hlocals : ctx.locals = .empty)
    (hordered : ∀ i ∈ instrs, i.op.isThreeWay = true → ∀ l r, M.unordered l r = false)
    (hinner : ∀ i ∈ instrs.dropLast, Terminator.ofInstruction i = .fallThrough i.next)
    (hlast : instrs.getLast? = some last) (hcheck : Checker.run true ctx instrs st = some out)
    (horderly : Sim.orderly ctx instrs f = true)
    (hrun : Simulation.runSteps ctx f asked exit instrs = .ok (f', asked', exit')) (hds : f'.duplicates.Le ds) :
    f'.Tidy ∧ f'.out.length < 65536 ∧
      (∀ e ∈ (exit'.getD (.ofTerminator last.next (.ofInstruction last))).operand?, f'.Knows e) ∧
      ∃ new, f'.out = f.out ++ new ∧ Machine.run M ctx instrs m =
        some (M.conclude (M.execAll ds σ new w) (exit'.getD (.ofTerminator last.next (.ofInstruction last)))) := by
  induction instrs generalizing f st σ w m asked exit with
  | nil => cases hlast
  | cons i rest ih =>
      unfold Sim.orderly at horderly
      unfold Simulation.runSteps at hrun
      simp only [StateT.run] at hrun
      obtain ⟨⟨⟨⟩, st1⟩, hstep, hrest⟩ := Option.bind_eq_some_iff.mp hcheck
      simp only [mem_cons, forall_eq_or_imp] at hordered
      cases hsim : Sim.step ctx i f with
      | error fault =>
          rw [hsim] at hrun
          cases hrun
      | ok r =>
          obtain ⟨exit1, f1⟩ := r
          simp only [hsim, Bool.and_eq_true, decide_eq_true_eq] at horderly hrun
          obtain ⟨⟨⟨hallows, horder⟩, hcount⟩, horderly⟩ := horderly
          cases rest with
          | nil =>
              obtain rfl : i = last := by simpa using hlast
              cases hrun
              cases exit' with
              | some x =>
                  obtain ⟨ht, hx, m', d, new, hm, hout, hleft⟩ :=
                    h.leave ds hlocals hordered.1 hstep hsim hallows horder hcount
                  exact ⟨ht, hcount, hx, new, hout, by simp [Machine.run, hm, hleft]⟩
              | none =>
                  obtain ⟨m', new, σ', w', hm, hout, hexec, hnext⟩ :=
                    h.step ds hlocals hordered.1 hstep hsim hallows horder hcount hds
                  have hfall := Sim.ofInstruction_of_step hsim hallows
                  obtain ⟨hworld, -⟩ := hnext.stack.calm horderly
                  refine ⟨hnext.tidy, hcount, by simp [hfall, Exit.ofTerminator, Exit.operand?], new, hout, ?_⟩
                  simp [Machine.run, hm, hexec, hfall, Exit.ofTerminator, conclude, decide, hnext.slots, hworld]
          | cons j rest =>
              obtain rfl := Sim.exit_of_fallThrough hsim (hinner i (by simp))
              obtain ⟨_, _, hsim', -, hfits, -⟩ := Sim.follows_step ctx i f st () st1 (.refl _) h.fits hstep
              cases hsim.symm.trans hsim'
              obtain ⟨f2, _, _, hrun2, hle, -⟩ := Simulation.runSteps_ok ctx
                (asked ++ Sim.lookups ctx i f) none hfits hrest
              cases hrun.symm.trans hrun2
              obtain ⟨m', new, σ', w', hm, hout, hexec, hnext⟩ :=
                h.step ds hlocals hordered.1 hstep hsim hallows horder hcount (hle.trans hds)
              obtain ⟨ht, hlen, hx, new', hout', hrun'⟩ := ih hnext hordered.2 (fun i hi => hinner i (by simp [hi]))
                (by rwa [getLast?_cons_cons] at hlast) hrest horderly hrun
              refine ⟨ht, hlen, hx, new ++ new', by rw [hout', hout, append_assoc], ?_⟩
              have hmachine : Machine.run M ctx (i :: j :: rest) m = Machine.run M ctx (j :: rest) m' := by
                rw [Machine.run, hm]
                rfl
              rw [hmachine, hrun', execAll_append, hexec]

end Model

end JvmLift
