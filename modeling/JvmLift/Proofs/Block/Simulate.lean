import JvmLift.Proofs.Block.Progress
import JvmLift.Proofs.Data
import JvmLift.Proofs.Flow.Blocks
import JvmLift.Proofs.Structure.Layout

/-!
# Disciplined methods are simulated

Blocks are simulated in reverse postorder, so that a block has a predecessor which has left a stack for it. All stacks
that are left for a block are as the discipline says.
-/
namespace JvmLift

open List

/-! ## Stacks that meet -/

variable {entry : Entry}

namespace Entry

variable {entry' : Entry}

section

variable (hf : entry.flowsTo entry' = true)

include hf

theorem admits_of_flowsTo {t} (h : entry.Admits t) : entry'.Admits t := by
  induction entry generalizing entry' t with
  | one =>
      cases entry' with
      | one => exact h
      | array e => exact ⟨h.1, fun u hu => absurd hu (h.2 u)⟩
      | two s => cases hf
  | array e ih =>
      cases entry' with
      | one => cases hf
      | array e' => exact ⟨h.1, fun u hu => ih hf (h.2 u hu)⟩
      | two s => cases hf
  | two s =>
      cases entry' with
      | one => cases s <;> cases hf
      | array e => cases s <;> cases hf
      | two s' =>
          cases s' with
          | own =>
              cases s with
              | own => exact h
              | copied => cases hf
              | faint => cases hf
          | copied => cases s <;> cases hf
          | faint => exact h.wide_or_unknown rfl

theorem says_of_flowsTo {ds e} (h : entry.Says ds e) : entry'.Says ds e := by
  refine ⟨admits_of_flowsTo hf h.1, fun hclear => ?_⟩
  cases entry with
  | one | array a => cases entry' <;> first | exact h.2 rfl | cases hf
  | two s =>
      cases entry' with
      | one => cases s <;> cases hf
      | array a => cases s <;> cases hf
      | two s' =>
          cases s' with
          | own => cases s <;> first | exact h.2 rfl | cases hf
          | copied => cases s <;> cases hf
          | faint => cases hclear

theorem ne_copied_of_flowsTo : entry' ≠ .two .copied := by
  rintro rfl
  cases entry with
  | two s => cases s <;> cases hf
  | one | array e => cases hf

end

theorem allFlowTo_iff {es es'} : allFlowTo es es' = true ↔ List.Forall₂ (fun e e' => e.flowsTo e' = true) es es' := by
  induction es generalizing es' with
  | nil => cases es' <;> simp [allFlowTo]
  | cons e es ih => cases es' <;> simp [allFlowTo, ih]

end Entry

variable {block : BasicBlock}

namespace Simulation

variable {ds : Duplicates}

theorem mergedType_cases (values : List Expr) :
    mergedType values = .unknown ∨ ∃ e ∈ values, mergedType values = e.ty := by
  unfold mergedType
  cases hf : (values.map (·.ty)).find? fun t => !(t == .null || t == .unknown) with
  | none => exact .inl rfl
  | some t =>
      obtain ⟨e, he, rfl⟩ := mem_map.mp (mem_of_find?_eq_some hf)
      exact .inr ⟨e, he, rfl⟩

theorem mergedType_isWide {values} (hne : values ≠ []) (h : ∀ e ∈ values, e.ty.isWide = true) :
    (mergedType values).isWide = true := by
  cases values with
  | nil => exact absurd rfl hne
  | cons e rest =>
      have he := h e (mem_cons_self ..)
      have hknown : (!(e.ty == .null || e.ty == .unknown)) = true := by
        cases ht : e.ty <;> simp_all [ErasedType.isWide]
      unfold mergedType
      simp only [map_cons, find?_cons, hknown]
      exact he

theorem says_mergeEntry {allSeen n values first} (hfirst : first ∈ values)
    (h : ∀ e ∈ values, entry.Says ds e) (hentry : entry ≠ .two .copied) :
    entry.Says ds (mergeEntry allSeen n values first).1 := by
  unfold mergeEntry
  split
  · exact h first hfirst
  · have hadmits : entry.Admits (mergedType values) := by
      rcases mergedType_cases values with ht | ⟨e, he, ht⟩
      · cases entry with
        | one | array a => rw [ht]; exact ⟨rfl, nofun⟩
        | two s =>
            cases s with
            | own => exact mergedType_isWide (ne_nil_of_mem hfirst) fun e he => (h e he).1
            | copied => exact absurd rfl hentry
            | faint => exact .inr ht
      · rw [ht]
        exact (h e he).1
    refine Entry.says_of_ty nofun hadmits fun hclear => ?_
    cases hw : entry.isWide with
    | false => exact hadmits.isWide_eq_false hw
    | true =>
        cases entry with
        | two s =>
            cases s with
            | own => exact hadmits
            | copied => exact absurd rfl hentry
            | faint => cases hclear
        | one => cases hw
        | array a => cases hw

variable {incoming : List (List Expr)}

theorem fits_mergeEntries (allSeen : Bool) (n : UInt16) {first entries} (hfirst : first ∈ incoming)
    (h : ∀ stack ∈ incoming, Fits ds stack entries)
    (hentries : ∀ entry ∈ entries, entry ≠ .two .copied) : Fits ds (mergeEntries allSeen n incoming first).1 entries ∧
      (mergeEntries allSeen n incoming first).2.1.length = entries.length := by
  induction first generalizing incoming entries n with
  | nil =>
      cases h [] hfirst
      exact ⟨.nil, rfl⟩
  | cons e rest ih =>
      cases h (e :: rest) hfirst with
      | @cons _ entry _ entries he hrest =>
          have hheads : ∀ v ∈ incoming.filterMap head?, entry.Says ds v := by
            intro v hv
            obtain ⟨stack, hstack, hhead⟩ := mem_filterMap.mp hv
            cases h stack hstack with
            | cons hv' _ =>
                cases hhead
                exact hv'
          have htails : ∀ stack ∈ incoming.map List.tail, Fits ds stack entries := by
            rintro _ htail
            obtain ⟨stack, hstack, rfl⟩ := mem_map.mp htail
            cases h stack hstack with
            | cons _ hs => exact hs
          have hmem : e ∈ incoming.filterMap head? := mem_filterMap.mpr ⟨_, hfirst, rfl⟩
          have htail : rest ∈ incoming.map List.tail := mem_map.mpr ⟨_, hfirst, rfl⟩
          obtain ⟨hvalues, hlen⟩ := ih (mergeEntry allSeen n (incoming.filterMap head?) e).2.2 htail
            htails fun entry he => hentries entry (mem_cons_of_mem _ he)
          refine ⟨.cons (says_mergeEntry hmem hheads (hentries entry (mem_cons_self ..))) hvalues, ?_⟩
          exact congrArg (· + 1) hlen

theorem mergeStacks_ok (id : BlockId) (preds : Nat) (n : UInt16) {entries} (hne : incoming ≠ [] ∨ entries = [])
    (h : ∀ stack ∈ incoming, Fits ds stack entries ∧ ∀ entry ∈ entries, entry ≠ .two .copied) :
    ∃ stack vars n', mergeStacks id incoming preds n = .ok (stack, vars, n') ∧ Fits ds stack entries ∧
      vars.length = entries.length := by
  cases incoming with
  | nil =>
      obtain rfl := hne.resolve_left fun hne => hne rfl
      exact ⟨[], [], n, rfl, .nil, rfl⟩
  | cons first rest =>
      have hlen : (first :: rest).find? (·.length != first.length) = none := by
        refine find?_eq_none.mpr fun stack hstack => ?_
        have hfirst := (h first (mem_cons_self ..)).1.length_eq
        simp [(h stack hstack).1.length_eq, hfirst]
      have hmerged := fits_mergeEntries (decide (preds ≤ (first :: rest).length)) n
        (mem_cons_self ..) (fun stack hs => (h stack hs).1) (h first (mem_cons_self ..)).2
      exact ⟨_, _, _, by simp only [mergeStacks, hlen]; rfl, hmerged.1, hmerged.2⟩

/-! ## One block -/

variable {ctx : MethodContext} {instrs : List Instruction} {f : Frame} {asked : List String} {exit : Option Exit}

variable {asked' : List String}

theorem terminator_runSteps {f' exit' last}
    (h : runSteps ctx f asked exit instrs = .ok (f', asked', exit')) (hlast : instrs.getLast? = some last) :
    (exit'.getD (.ofTerminator last.next (.ofInstruction last))).terminator =
      (Terminator.ofInstruction last).onReturn := by
  induction instrs generalizing f asked exit with
  | nil => cases hlast
  | cons i rest ih =>
      unfold runSteps at h
      split at h
      · rename_i exit1 f1 hstep
        cases rest with
        | nil =>
            cases hlast
            cases h
            exact Sim.terminator_step hstep
        | cons j rest => exact ih h (by rwa [getLast?_cons_cons] at hlast)
      · cases h

theorem targets_runSteps {f' exit' last}
    (h : runSteps ctx f asked exit instrs = .ok (f', asked', exit')) (hlast : instrs.getLast? = some last) :
    (exit'.getD (.ofTerminator last.next (.ofInstruction last))).targets = (Terminator.ofInstruction last).targets := by
  rw [← Exit.targets_terminator, terminator_runSteps h hlast, Terminator.targets_onReturn]

theorem runSteps_ok (ctx : MethodContext) {st out} (asked : List String) (exit : Option Exit)
    (hf : f.Fits st) (hrun : Checker.run true ctx instrs st = some out) :
    ∃ f' asked' exit', runSteps ctx f asked exit instrs = .ok (f', asked', exit') ∧
      f.duplicates.Le f'.duplicates ∧ f'.Fits out := by
  induction instrs generalizing f st asked exit with
  | nil =>
      cases hrun
      exact ⟨f, asked, exit, rfl, .refl _, hf⟩
  | cons i rest ih =>
      obtain ⟨⟨⟨⟩, st1⟩, hstep, hrest⟩ := Option.bind_eq_some_iff.mp hrun
      obtain ⟨exit1, f1, hsim, hle1, hf1, -⟩ := Sim.follows_step ctx i f st () st1 (.refl _) hf hstep
      obtain ⟨f', asked', exit', hsteps, hle, hf'⟩ :=
        ih (asked ++ Sim.lookups ctx i f) exit1 hf1 hrest
      refine ⟨f', asked', exit', ?_, hle1.trans hle, hf'⟩
      simp only [runSteps, StateT.run, hsim]
      exact hsteps

/-- Stacks on their way are as expected, the blocks in `seen` have been entered, and those in `done`
have left a stack for each of their successors. -/
structure Good (p : Plan) (stackAt : BlockId → List Entry) (done seen : List BlockId) (s : State) : Prop where
  pending : ∀ d ∈ s.pending, Fits s.duplicates d.stack (stackAt d.target).reverse ∧
    ∀ entry ∈ stackAt d.target, entry ≠ .two .copied
  entries : ∀ id vars, s.entries.lookup id = some vars → vars.length = (stackAt id).length ∧ id ∈ seen
  delivered : ∀ u ∈ done, ∀ block, p.flow.block? u = some block → ∀ t ∈ block.terminator.targets,
    t ∈ p.order → p.isHandler t = false → t ∈ seen ∨ ∃ d ∈ s.pending, d.target = t

variable {p : Plan} {stackAt : BlockId → List Entry} {done seen : List BlockId} {s : State}

theorem good_initial (p : Plan) (stackAt : BlockId → List Entry) : Good p stackAt [] [] .initial :=
  ⟨nofun, nofun, nofun⟩

theorem Good.see (h : Good p stackAt done seen s) (id : BlockId) : Good p stackAt done (id :: seen) s where
  pending := h.pending
  entries id' vars hv := (h.entries id' vars hv).imp_right (mem_cons_of_mem _)
  delivered u hu block hb t ht ho hh := (h.delivered u hu block hb t ht ho hh).imp_left (mem_cons_of_mem _)

/-- A block is entered with the stack that is expected there, if it is a block of its own kind, starts
the method or has been left a stack. -/
theorem enter_ok (h : Good p stackAt done seen s) (id : BlockId)
    (hhandler : p.isHandler id = true → stackAt id = [.one]) (hsubroutine : id ∈ p.subroutines → stackAt id = [.one])
    (hother : p.isHandler id = false → id ∉ p.subroutines → stackAt id = [] ∨ ∃ d ∈ s.pending, d.target = id) :
    ∃ stack s', enter p s id = .ok (stack, s') ∧ s'.duplicates = s.duplicates ∧
      Fits s.duplicates stack (stackAt id).reverse ∧ Good p stackAt done (id :: seen) s' := by
  have hone : ∀ e : Expr, e.ty.isWide = false → (∀ u, e.ty ≠ .array u) → (∀ id, e ≠ .dupLoad id) →
      stackAt id = [.one] → Fits s.duplicates [e] (stackAt id).reverse := by
    intro e hw ha hne hat
    rw [hat]
    exact .cons (Entry.says_of_ty hne ⟨hw, ha⟩ fun _ => hw) .nil
  unfold enter
  by_cases hh : p.isHandler id = true
  · rw [if_pos hh]
    exact ⟨_, s, rfl, rfl, hone _ rfl nofun nofun (hhandler hh), h.see id⟩
  · rw [if_neg hh]
    by_cases hs : p.subroutines.contains id = true
    · rw [if_pos hs]
      exact ⟨_, s, rfl, rfl, hone _ rfl nofun nofun (hsubroutine (contains_iff_mem.mp hs)), h.see id⟩
    · rw [if_neg hs]
      have hincoming : ∀ stack ∈ (s.pending.filter (·.target == id)).map (·.stack),
          Fits s.duplicates stack (stackAt id).reverse ∧
            ∀ entry ∈ (stackAt id).reverse, entry ≠ .two .copied := by
        intro stack hstack
        obtain ⟨d, hd, rfl⟩ := mem_map.mp hstack
        obtain ⟨hpending, ht⟩ := mem_filter.mp hd
        obtain rfl := beq_iff_eq.mp ht
        exact (h.pending d hpending).imp_right fun hc entry he => hc entry (mem_reverse.mp he)
      have hne : (s.pending.filter (·.target == id)).map (·.stack) ≠ [] ∨ (stackAt id).reverse = [] := by
        rcases hother (by simpa using hh) (by simpa using hs) with hnil | ⟨d, hd, rfl⟩
        · exact .inr (by rw [hnil]; rfl)
        · exact .inl (ne_nil_of_mem (mem_map_of_mem (mem_filter.mpr ⟨hd, beq_self_eq_true _⟩)))
      obtain ⟨stack, vars, n, hm, hfits, hlen⟩ := mergeStacks_ok id (p.predCount id) s.nextStack hne hincoming
      simp only [hm]
      refine ⟨_, _, rfl, rfl, hfits, fun d hd => h.pending d (mem_filter.mp hd).1, ?_, ?_⟩
      · intro id' vars' hv
        rw [lookup_cons] at hv
        split at hv
        · rename_i heq
          cases hv
          obtain rfl := beq_iff_eq.mp heq
          exact ⟨by simpa using hlen, mem_cons_self ..⟩
        · exact (h.entries id' vars' hv).imp_right (mem_cons_of_mem _)
      · intro u hu block hb t ht ho hhand
        by_cases hid : t = id
        · exact .inl (by simp [hid])
        · rcases h.delivered u hu block hb t ht ho hhand with hseen | ⟨d, hd, rfl⟩
          · exact .inl (mem_cons_of_mem _ hseen)
          · exact .inr ⟨d, mem_filter.mpr ⟨hd, by simpa using hid⟩, rfl⟩

theorem deliver_ok (p : Plan) (b : Block) (ts : List BlockId) (s : State)
    (hlen : ∀ t ∈ ts, t ∈ p.order → ∀ vars, s.entries.lookup t = some vars → vars.length = b.stack.length) :
    ∃ more, deliver p b ts s = .ok { s with pending := s.pending ++ more } ∧
      (∀ d ∈ more, d.stack = b.stack ∧ d.target ∈ ts ∧ d.target ∈ p.order) ∧
      ∀ t ∈ ts, t ∈ p.order → p.isHandler t = false →
        (∃ vars, s.entries.lookup t = some vars) ∨ ∃ d ∈ more, d.target = t := by
  induction ts generalizing s with
  | nil => exact ⟨[], by simp [deliver], nofun, nofun⟩
  | cons t ts ih =>
      have hrest : ∀ t' ∈ ts, t' ∈ p.order → ∀ vars, s.entries.lookup t' = some vars →
          vars.length = b.stack.length := fun t' ht' => hlen t' (mem_cons_of_mem _ ht')
      unfold deliver
      by_cases hskip : (!p.order.contains t || p.isHandler t) = true
      · obtain ⟨more, hd, hmore, hall⟩ := ih s hrest
        rw [if_pos hskip]
        refine ⟨more, hd, fun d hd => ?_, fun t' ht' ho hh => ?_⟩
        · exact (hmore d hd).imp_right (And.imp_left (mem_cons_of_mem _))
        · rcases mem_cons.mp ht' with rfl | ht'
          · simp [ho, hh] at hskip
          · exact hall t' ht' ho hh
      · rw [if_neg hskip]
        have ho : t ∈ p.order := by
          by_contra hno
          simp [hno] at hskip
        cases hentry : s.entries.lookup t with
        | some vars =>
            obtain ⟨more, hd, hmore, hall⟩ := ih s hrest
            simp only [if_pos (hlen t (mem_cons_self ..) ho vars hentry)]
            refine ⟨more, hd, fun d hd => ?_, fun t' ht' ho hh => ?_⟩
            · exact (hmore d hd).imp_right (And.imp_left (mem_cons_of_mem _))
            · rcases mem_cons.mp ht' with rfl | ht'
              · exact .inl ⟨vars, hentry⟩
              · exact hall t' ht' ho hh
        | none =>
            obtain ⟨more, hd, hmore, hall⟩ := ih { s with pending := s.pending ++ [⟨t, b.id, b.stack⟩] } hrest
            refine ⟨⟨t, b.id, b.stack⟩ :: more, by simpa using hd, fun d hd => ?_, fun t' ht' ho hh => ?_⟩
            · rcases mem_cons.mp hd with rfl | hd
              · exact ⟨rfl, mem_cons_self .., ho⟩
              · exact (hmore d hd).imp_right (And.imp_left (mem_cons_of_mem _))
            · rcases mem_cons.mp ht' with rfl | ht'
              · exact .inr ⟨_, mem_cons_self .., rfl⟩
              · rcases hall t' ht' ho hh with he | ⟨d, hd, rfl⟩
                · exact .inl he
                · exact .inr ⟨d, mem_cons_of_mem _ hd, rfl⟩

theorem Good.leave {s' more} (h : Good p stackAt done seen s)
    (hblock : p.flow.block? block.id = some block) (hle : s.duplicates.Le s'.duplicates)
    (hmore : ∀ d ∈ more, Fits s'.duplicates d.stack (stackAt d.target).reverse ∧
      ∀ entry ∈ stackAt d.target, entry ≠ .two .copied)
    (hpending : s'.pending = s.pending ++ more) (hentries : s'.entries = s.entries)
    (hall : ∀ t ∈ block.terminator.targets, t ∈ p.order → p.isHandler t = false → t ∈ seen ∨ ∃ d ∈ more, d.target = t) :
    Good p stackAt (block.id :: done) seen s' where
  pending d hd := by
    rw [hpending] at hd
    rcases mem_append.mp hd with hd | hd
    · exact (h.pending d hd).imp_left (·.mono hle)
    · exact hmore d hd
  entries := hentries ▸ h.entries
  delivered u hu block' hb t ht ho hh := by
    rw [hpending]
    rcases mem_cons.mp hu with rfl | hu
    · cases hblock.symm.trans hb
      exact (hall t ht ho hh).imp_right fun ⟨d, hd, heq⟩ => ⟨d, mem_append_right _ hd, heq⟩
    · exact (h.delivered u hu block' hb t ht ho hh).imp_right fun ⟨d, hd, heq⟩ =>
        ⟨d, mem_append_left _ hd, heq⟩

theorem simulateBlock_eq {stack s1 s2} (henter : enter p s block.id = .ok (stack, s1))
    (hsteps : runSteps ctx ⟨s1.duplicates, s1.nextTemp, stack.reverse, [], block.id⟩ s1.asked none
      block.instructions = .ok (f, asked, exit)) {b}
    (hdeliver : deliver p b b.succs { s1 with duplicates := f.duplicates, nextTemp := f.nextTemp, asked } = .ok s2)
    (hb : b = ⟨block.id, f.out, exit.getD (.ofTerminator block.stop block.terminator), f.stack.reverse⟩) :
    simulateBlock ctx p s block = .ok { s2 with blocks := (spillBack s2.entries b).insert s2.blocks } := by
  subst hb
  unfold simulateBlock
  rw [henter]
  show (runSteps ctx _ s1.asked none block.instructions >>= _) = _
  rw [hsteps]
  show ((deliver p _ _ _).mapError _ >>= _) = _
  rw [hdeliver]
  rfl

end Simulation

/-! ## All blocks -/

namespace ControlFlow

def Terminated (cf : ControlFlow) : Prop :=
  ∀ b ∈ cf.blocks, ∃ last, b.instructions.getLast? = some last ∧ b.terminator = .ofInstruction last

theorem terminated_build (code : List Instruction) (edges : List HandlerEdge) (extra : List Nat) :
    (build code edges extra).Terminated := by
  intro b hb
  obtain ⟨run, -, hrun⟩ := mem_filterMap.mp hb
  obtain ⟨first, -, hrun⟩ := Option.bind_eq_some_iff.mp hrun
  obtain ⟨last, hlast, hrun⟩ := Option.bind_eq_some_iff.mp hrun
  cases hrun
  exact ⟨last, hlast, rfl⟩

variable {cf : ControlFlow} {b t : BlockId} {block : BasicBlock}

theorem node_flowGraph {n} (h : cf.flowGraph.nodes[b]? = some n) :
    n = ⟨cf.succs b, (cf.allSuccs b).filter fun s => !(cf.succs b).contains s⟩ := by
  unfold flowGraph FlowGraph.ofNodes at h
  rw [Std.TreeMap.ofList_eq_insertMany_empty, Std.TreeMap.getElem?_insertMany_list] at h
  simp only [Std.TreeMap.getElem?_emptyc, Option.or_none] at h
  obtain ⟨x, hx, hn⟩ := exists_of_findSome?_eq_some (findSomeRev?_eq_findSome?_reverse ▸ h)
  obtain ⟨block, -, rfl⟩ := mem_map.mp (mem_reverse.mp hx)
  split at hn
  · rename_i hid
    obtain rfl := Std.LawfulEqCmp.eq_of_compare hid
    cases hn
    rfl
  · cases hn

theorem entered (h : t ∈ cf.flowGraph.allSuccs b) : (∃ block, cf.block? b = some block ∧ t ∈ block.terminator.targets) ∨
      (∃ e ∈ cf.handlers, e.handler = t) ∨ t ∈ cf.subroutines := by
  unfold FlowGraph.allSuccs at h
  split at h
  · rename_i n hn
    rw [node_flowGraph hn] at h
    have hall : t ∈ cf.succs b ∨ t ∈ cf.jsrTarget? b ∨ t ∈ cf.handlersOf b := by
      rcases mem_append.mp (mem_filter.mp h).1 with ht | ht
      · exact .inl ht
      · simpa [allSuccs] using (mem_filter.mp (mem_filter.mp ht).1).1
    rcases hall with ht | ht | ht
    · unfold succs at ht
      split at ht
      · exact .inl ⟨_, ‹_›, (mem_filter.mp ht).1⟩
      · cases ht
    · obtain ⟨block, hblock, ht⟩ := Option.bind_eq_some_iff.mp ht
      refine .inr (.inr (mem_sortedSet.mpr (mem_filterMap.mpr ⟨block, (block?_some hblock).1, ?_⟩)))
      exact ht
    · obtain ⟨e, he, rfl⟩ := mem_map.mp (mem_eraseReps.mp ht)
      exact .inr (.inl ⟨e, (mem_filter.mp he).1, rfl⟩)
  · cases h

end ControlFlow

namespace Simulation

variable {cf : ControlFlow} {ctx : MethodContext} {stackAt : BlockId → List Entry}
  {done : List BlockId} {s : State}

theorem fits_of_allFlowTo {ds stack out st} (h : Entry.allFlowTo out st = true) (hf : Fits ds stack out) :
    Fits ds stack.reverse st.reverse ∧ ∀ entry ∈ st, entry ≠ .two .copied := by
  have hflow := Entry.allFlowTo_iff.mp h
  refine ⟨rel_reverse ?_, fun entry he => ?_⟩
  · clear h
    induction hflow generalizing stack with
    | nil => exact hf
    | cons he _ ih =>
        cases hf with
        | cons hs hf => exact .cons (Entry.says_of_flowsTo he hs) (ih hf)
  · obtain ⟨i, hi, rfl⟩ := getElem_of_mem he
    exact Entry.ne_copied_of_flowsTo (hflow.get (hflow.length_eq ▸ hi) hi)

theorem isHandler_iff {b} : (Plan.ofFlow cf).isHandler b = true ↔ ∃ e ∈ cf.handlers, e.handler = b := by
  simp [Plan.isHandler, Plan.ofFlow]

theorem simulateBlock_ok (h : cf.Obeys true ctx stackAt) (hends : cf.Terminated)
    (hgood : Good (.ofFlow cf) stackAt done done s) (hblock : cf.block? block.id = some block)
    (hin : block.id ∈ cf.reversePostorder) (hnew : block.id ∉ done)
    (hlinked : block.id = cf.entry ∨ ∃ u ∈ done, block.id ∈ cf.flowGraph.allSuccs u) :
    ∃ s', simulateBlock ctx (.ofFlow cf) s block = .ok s' ∧
      Good (.ofFlow cf) stackAt (block.id :: done) (block.id :: done) s' := by
  have hmem := (ControlFlow.block?_some hblock).1
  obtain ⟨last, hlast, hterm⟩ := hends block hmem
  obtain ⟨out, hrun, hout⟩ := h.blocks block hmem hin
  obtain ⟨stack, s1, henter, hds, hfits, hgood1⟩ := enter_ok hgood block.id
    (fun hh => by
      obtain ⟨e, he, hid⟩ := isHandler_iff.mp hh
      exact hid ▸ h.handlers e he)
    (h.subroutines block.id)
    (fun hh hs => by
      rcases hlinked with hid | ⟨u, hu, hsucc⟩
      · exact .inl (hid ▸ h.entry)
      · rcases ControlFlow.entered hsucc with ⟨pred, hpred, ht⟩ | hhandler | hsub
        · exact .inr ((hgood.delivered u hu pred hpred _ ht hin hh).resolve_left hnew)
        · rw [isHandler_iff.mpr hhandler] at hh
          cases hh
        · exact absurd hsub hs)
  have hframe : (Frame.mk s1.duplicates s1.nextTemp stack.reverse [] block.id).Fits (stackAt block.id) := by
    have := rel_reverse hfits
    rw [reverse_reverse] at this
    exact hds ▸ this
  obtain ⟨f, asked, exit, hsteps, hle, hf⟩ := runSteps_ok ctx s1.asked none hframe hrun
  let b : Block := ⟨block.id, f.out, exit.getD (.ofTerminator block.stop block.terminator), f.stack.reverse⟩
  have hsuccs : b.succs = block.terminator.targets := by
    have hstop : block.stop = last.next := by simp [BasicBlock.stop, hlast]
    simpa [b, Block.succs, hstop, hterm] using targets_runSteps hsteps hlast
  have hflow : ∀ t ∈ b.succs, t ∈ cf.reversePostorder → Fits f.duplicates b.stack (stackAt t).reverse ∧
      ∀ entry ∈ stackAt t, entry ≠ .two .copied := fun t ht ho =>
    fits_of_allFlowTo (hout t (hsuccs ▸ ht) ho) hf
  obtain ⟨more, hdeliver, hmore, hall⟩ := deliver_ok (.ofFlow cf) b b.succs
    { s1 with duplicates := f.duplicates, nextTemp := f.nextTemp, asked } (fun t ht ho vars hv => by
      have hlen := (hflow t ht ho).1.length_eq
      rw [(hgood1.entries t vars hv).1]
      simpa using hlen.symm)
  refine ⟨_, simulateBlock_eq henter hsteps hdeliver rfl, ?_⟩
  refine hgood1.leave hblock (hds ▸ hle) ?_ rfl rfl fun t ht ho hh => ?_
  · intro d hd
    obtain ⟨hstack, ht, ho⟩ := hmore d hd
    exact hstack ▸ hflow d.target ht ho
  · rcases hall t (hsuccs ▸ ht) ho hh with ⟨vars, hv⟩ | hd
    · exact .inl (hgood1.entries t vars hv).2
    · exact .inr hd

theorem simulateAll_ok (h : cf.Obeys true ctx stackAt) (hends : cf.Terminated) {rest}
    (hgood : Good (.ofFlow cf) stackAt done done s) (horder : cf.reversePostorder = done.reverse ++ rest) :
    ∃ s', simulateAll ctx (.ofFlow cf) s rest = .ok s' := by
  induction rest generalizing s done with
  | nil => exact ⟨s, rfl⟩
  | cons id rest ih =>
      have horder' : cf.reversePostorder = (id :: done).reverse ++ rest := by simp [horder]
      unfold simulateAll
      cases hblock : (Plan.ofFlow cf).flow.block? id with
      | none =>
          have hskip : Good (.ofFlow cf) stackAt (id :: done) (id :: done) s := by
            refine ⟨hgood.pending, (hgood.see id).entries, fun u hu block hb => ?_⟩
            rcases mem_cons.mp hu with rfl | hu
            · cases hblock.symm.trans hb
            · exact (hgood.see id).delivered u hu block hb
          exact ih hskip horder'
      | some block =>
          obtain ⟨-, rfl⟩ := ControlFlow.block?_some hblock
          have hnodup : (done.reverse ++ block.id :: rest).Nodup :=
            horder ▸ FlowGraph.nodup_reversePostorder cf.flowGraph
          have hlinked := FlowGraph.linked_reversePostorder cf.flowGraph _ _ _ horder
          obtain ⟨s', hs', hgood'⟩ := simulateBlock_ok h hends hgood hblock (by simp [horder])
            (fun hd => (nodup_append.mp hnodup).2.2 _ (mem_reverse.mpr hd) _ (mem_cons_self ..) rfl)
            (hlinked.imp mem_singleton.mp (Exists.imp fun u => And.imp_left mem_reverse.mp))
          obtain ⟨s'', hs''⟩ := ih hgood' horder'
          refine ⟨s'', ?_⟩
          show (simulateBlock ctx (.ofFlow cf) s block >>= fun s => simulateAll ctx (.ofFlow cf) s rest) = _
          rw [hs']
          exact hs''

end Simulation

/-- Code that obeys the strict discipline is simulated. -/
theorem simulate_of_obeys {code : List Instruction} {edges : List HandlerEdge} {extra : List Nat}
    {ctx : MethodContext} (stackAt : BlockId → List Entry)
    (h : (ControlFlow.build code edges extra).Obeys true ctx stackAt) :
    ∃ blocks asked, simulate ctx (.build code edges extra) = .ok (blocks, asked) := by
  obtain ⟨s, hs⟩ := Simulation.simulateAll_ok h (ControlFlow.terminated_build code edges extra)
    (Simulation.good_initial _ stackAt) rfl
  exact ⟨_, _, bind_eq_ok.mpr ⟨s, hs, rfl⟩⟩

namespace Discipline

def context : MethodContext := ⟨⟨[]⟩, ⟨[]⟩, ⟨none, []⟩, .empty, true, .long⟩

/-- A sum that a branch may change before it is duplicated. -/
def sumOverBranch : List Instruction :=
  [⟨0, 0x0a, 1, .longConst (.last 1)⟩, ⟨1, 0x0a, 1, .longConst (.last 1)⟩, ⟨2, 0x61, 1, .arith .long .add⟩,
    ⟨3, 0x1a, 1, .load .int 0⟩, ⟨4, 0x99, 3, .ifZero .eq 9⟩,
    ⟨7, 0x0a, 1, .longConst (.last 1)⟩, ⟨8, 0x61, 1, .arith .long .add⟩,
    ⟨9, 0x5c, 1, .dup2⟩, ⟨10, 0x58, 1, .pop2⟩, ⟨11, 0xad, 1, .leave (some .long)⟩]

/-- A negated duplicate of a sum is popped. -/
def negatedCopy : List Instruction :=
  [⟨0, 0x0a, 1, .longConst (.last 1)⟩, ⟨1, 0x0a, 1, .longConst (.last 1)⟩, ⟨2, 0x61, 1, .arith .long .add⟩,
    ⟨3, 0x5c, 1, .dup2⟩, ⟨4, 0x75, 1, .neg .long⟩, ⟨5, 0x58, 1, .pop2⟩, ⟨6, 0x58, 1, .pop2⟩,
    ⟨7, 0xb1, 1, .leave none⟩]

end Discipline

theorem simulate_sumOverBranch : ∃ blocks asked, simulate Discipline.context (.build Discipline.sumOverBranch [] []) =
      .ok (blocks, asked) :=
  simulate_of_obeys (fun b => if b = 0 then [] else [.two .own]) (by decide +kernel)

/-- Without strictness the discipline is not enough: the simulation takes a negated duplicate for an
entry of category one. -/
theorem categoryMismatch_negatedCopy :
    (ControlFlow.build Discipline.negatedCopy [] []).Obeys false Discipline.context (fun _ => []) ∧
      simulate Discipline.context (.build Discipline.negatedCopy [] []) =
        .error ⟨.categoryMismatch 5 "pop2", []⟩ := by
  refine ⟨by decide +kernel, ?_⟩
  have hfault : (simulate Discipline.context (.build Discipline.negatedCopy [] [])).map (fun _ => ()) =
      .error ⟨.categoryMismatch 5 "pop2", []⟩ := by decide +kernel
  cases hs : simulate Discipline.context (.build Discipline.negatedCopy [] []) with
  | ok r =>
      rw [hs] at hfault
      cases hfault
  | error e =>
      rw [hs] at hfault
      cases hfault
      rfl

end JvmLift
