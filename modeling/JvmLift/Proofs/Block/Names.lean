import JvmLift.Block.Simulate
import Mathlib.Data.List.Basic

/-!
# Names of simulated blocks

Simulation gives blocks in ascending order: a block is inserted at its place, and everything that
happens to it later leaves its name.
-/
namespace JvmLift

open List

variable {ε α : Type} {x : Except ε α}

theorem bind_eq_ok {β} {f : α → Except ε β} {r} : (x >>= f) = .ok r ↔ ∃ a, x = .ok a ∧ f a = .ok r := by
  cases x <;> simp [bind, Except.bind]

theorem map_eq_ok {β} {f : α → β} {r} : x.map f = .ok r ↔ ∃ a, x = .ok a ∧ f a = r := by
  cases x <;> simp [Except.map]

theorem mapError_eq_ok {ε'} {f : ε → ε'} {r} : x.mapError f = .ok r ↔ x = .ok r := by
  cases x <;> simp [Except.mapError]

def Block.Ascending (blocks : List Block) : Prop := (blocks.map (·.id)).Pairwise (· < ·)

variable {blocks : List Block}

theorem Block.Ascending.nodup (h : Block.Ascending blocks) : (blocks.map (·.id)).Nodup :=
  h.imp Nat.ne_of_lt

theorem Block.Ascending.of_map_id {blocks'} (h : Block.Ascending blocks)
    (hid : blocks'.map (·.id) = blocks.map (·.id)) : Block.Ascending blocks' := by
  unfold Block.Ascending
  rw [hid]
  exact h

variable {b : Block}

theorem Block.mem_of_mem_insert {c} (hc : c ∈ b.insert blocks) : c = b ∨ c ∈ blocks := by
  induction blocks with
  | nil => simpa [Block.insert] using hc
  | cons d rest ih =>
      unfold Block.insert at hc
      split at hc
      · simpa using hc
      · split at hc
        · exact (mem_cons.mp hc).imp_right (mem_cons_of_mem _)
        · rcases mem_cons.mp hc with rfl | hc
          · exact .inr mem_cons_self
          · exact (ih hc).imp_right (mem_cons_of_mem _)

theorem Block.Ascending.insert (h : Block.Ascending blocks) (b : Block) : Block.Ascending (b.insert blocks) := by
  induction blocks with
  | nil => simp [Block.insert, Block.Ascending]
  | cons c rest ih =>
      simp only [Block.Ascending, map_cons, pairwise_cons] at h
      unfold Block.insert
      split
      · rename_i hlt
        simp only [Block.Ascending, map_cons, pairwise_cons, mem_cons]
        refine ⟨?_, h⟩
        rintro x (rfl | hx)
        · exact hlt
        · exact Nat.lt_trans hlt (h.1 x hx)
      · rename_i hge
        split
        · rename_i heq
          simp only [Block.Ascending, map_cons, pairwise_cons]
          exact ⟨fun x hx => heq ▸ h.1 x hx, h.2⟩
        · rename_i hne
          simp only [Block.Ascending, map_cons, pairwise_cons]
          refine ⟨fun x hx => ?_, ih h.2⟩
          obtain ⟨d, hd, rfl⟩ := mem_map.mp hx
          rcases Block.mem_of_mem_insert hd with rfl | hd
          · exact Nat.lt_of_le_of_ne (Nat.le_of_not_lt hge) (Ne.symm hne)
          · exact h.1 d.id (mem_map_of_mem hd)

def Block.link (b : Block) : BlockId × List BlockId := (b.id, b.succs)

theorem Block.map_id_of_link {blocks' : List Block} (h : blocks'.map Block.link = blocks.map Block.link) :
    blocks'.map (·.id) = blocks.map (·.id) := by
  simpa [Function.comp_def, Block.link] using congrArg (List.map Prod.fst) h

/-- How control leaves, whatever decides on it. -/
def Exit.terminator : Exit → Terminator
  | .fall t => .fallThrough t
  | .goto t => .goto t
  | .cond _ taken other => .branch taken other
  | .switch _ default cases => .switch default cases
  | .leave => .leave
  | .throw => .throw
  | .ret => .ret

def Terminator.onReturn : Terminator → Terminator
  | .jsr _ returnTo => .fallThrough returnTo
  | t => t

theorem Exit.targets_terminator (x : Exit) : x.terminator.targets = x.targets := by cases x <;> rfl

theorem Terminator.targets_onReturn (t : Terminator) : t.onReturn.targets = t.targets := by cases t <;> rfl

theorem Exit.terminator_mapNodes (f : Expr → Expr) (x : Exit) : (x.mapNodes f).terminator = x.terminator := by
  cases x <;> rfl

theorem Exit.targets_mapNodes (f : Expr → Expr) (x : Exit) : (x.mapNodes f).targets = x.targets := by
  rw [← targets_terminator, terminator_mapNodes, targets_terminator]

namespace Duplicates

theorem map_link_settleBlocks (ds : Duplicates) (total : Nat → Nat) (p : Progress) (blocks : List Block) :
    (ds.settleBlocks total p blocks).2.map Block.link = blocks.map Block.link := by
  induction blocks generalizing p with
  | nil => rfl
  | cons b rest ih =>
      simp only [settleBlocks, map_cons]
      rw [ih]
      rfl

theorem map_link_resolve (ds : Duplicates) (blocks : List Block) (nextTemp : UInt16) :
    (ds.resolve blocks nextTemp).1.map Block.link = blocks.map Block.link := by
  unfold resolve
  split
  · rfl
  · rw [← map_link_settleBlocks ds (ds.totalUses blocks) ⟨[], nextTemp⟩ blocks]
    simp [Block.mapNodes, Block.link, Block.succs, Exit.targets_mapNodes]

end Duplicates

namespace Simulation

variable {ctx : MethodContext} {p : Plan} {s s' : State}

theorem enter_inv {id : BlockId} {stack} (h : enter p s id = .ok (stack, s')) :
    (s' = s ∧ (p.isHandler id = true ∨ id ∈ p.subroutines)) ∨
      p.isHandler id = false ∧ id ∉ p.subroutines ∧ ∃ vars n,
        mergeStacks id ((s.pending.filter (·.target == id)).map (·.stack)) (p.predCount id) s.nextStack =
          .ok (stack, vars, n) ∧
        s' = { s with
          nextStack := n
          blocks := (s.pending.filter (·.target == id)).foldl
            (fun blocks d => blocks.map fun b => if b.id = d.source then appendSpills vars d.stack b else b) s.blocks
          pending := s.pending.filter (·.target != id)
          entries := (id, vars) :: s.entries } := by
  unfold enter at h
  split at h
  · rename_i hh
    cases h
    exact .inl ⟨rfl, .inl hh⟩
  split at h
  · rename_i hs
    cases h
    exact .inl ⟨rfl, .inr (contains_iff_mem.mp hs)⟩
  rename_i hh hs
  obtain ⟨⟨stack, vars, n⟩, hmerge, h⟩ := bind_eq_ok.mp h
  cases h
  exact .inr ⟨by simpa using hh, fun hmem => hs (contains_iff_mem.mpr hmem), vars, n, hmerge, rfl⟩

def awaits (p : Plan) (entries : List (BlockId × SpillVars)) (t : BlockId) : Bool :=
  p.order.contains t && !p.isHandler t && (entries.lookup t).isNone

/-- A stack is left for every successor that waits, and has the height with which the others were
entered. -/
theorem deliver_spec {ts} (h : deliver p b ts s = .ok s') :
    s' = { s with pending := s.pending ++ (ts.filter (awaits p s.entries)).map fun t => ⟨t, b.id, b.stack⟩ } ∧
      ∀ t ∈ ts, t ∈ p.order → p.isHandler t = false → ∀ vars, s.entries.lookup t = some vars →
        vars.length = b.stack.length := by
  induction ts generalizing s with
  | nil =>
      cases h
      exact ⟨by simp, nofun⟩
  | cons t ts ih =>
      unfold deliver at h
      split at h
      · rename_i hskip
        obtain ⟨rfl, hall⟩ := ih h
        have hno : awaits p s.entries t = false := by
          unfold awaits
          cases ho : p.order.contains t <;> simp_all
        refine ⟨by rw [filter_cons_of_neg (by simp [hno])], forall_mem_cons.mpr ⟨fun ho hh => ?_, hall⟩⟩
        simp [ho, hh] at hskip
      · rename_i hgo
        simp only [Bool.or_eq_true, Bool.not_eq_true', not_or, Bool.not_eq_false] at hgo
        split at h
        · rename_i vars hvars
          split at h
          · rename_i hlen
            obtain ⟨rfl, hall⟩ := ih h
            have hno : awaits p s.entries t = false := by simp [awaits, hvars]
            refine ⟨by rw [filter_cons_of_neg (by simp [hno])], forall_mem_cons.mpr ⟨fun _ _ vars' hv => ?_, hall⟩⟩
            cases hvars.symm.trans hv
            exact hlen
          · cases h
        · rename_i hnone
          obtain ⟨rfl, hall⟩ := ih h
          have hyes : awaits p s.entries t = true := by simp [awaits, hnone, hgo.2, contains_iff_mem.mp hgo.1]
          refine ⟨by simp [hyes], forall_mem_cons.mpr ⟨fun _ _ vars hv => ?_, hall⟩⟩
          cases hnone.symm.trans hv

theorem simulateBlock_inv {block} (h : simulateBlock ctx p s block = .ok s') :
    ∃ stack s1 f asked exit, enter p s block.id = .ok (stack, s1) ∧
      runSteps ctx ⟨s1.duplicates, s1.nextTemp, stack.reverse, [], block.id⟩ s1.asked none block.instructions =
        .ok (f, asked, exit) ∧
      let b : Block := ⟨block.id, f.out, exit.getD (.ofTerminator block.stop block.terminator), f.stack.reverse⟩
      (∀ t ∈ b.succs, t ∈ p.order → p.isHandler t = false → ∀ vars, s1.entries.lookup t = some vars →
        vars.length = b.stack.length) ∧
      s' = { s1 with
        duplicates := f.duplicates
        nextTemp := f.nextTemp
        asked
        pending := s1.pending ++ (b.succs.filter (awaits p s1.entries)).map fun t => ⟨t, b.id, b.stack⟩
        blocks := (spillBack s1.entries b).insert s1.blocks } := by
  obtain ⟨⟨stack, s1⟩, henter, h⟩ := bind_eq_ok.mp h
  obtain ⟨⟨f, asked, exit⟩, hsteps, h⟩ := bind_eq_ok.mp h
  obtain ⟨s2, hdeliver, h⟩ := bind_eq_ok.mp h
  obtain ⟨rfl, hlen⟩ := deliver_spec (mapError_eq_ok.mp hdeliver)
  cases h
  exact ⟨stack, s1, f, asked, exit, mapError_eq_ok.mp henter, hsteps, hlen, rfl⟩

theorem map_link_enter {id stack} (h : enter p s id = .ok (stack, s')) :
    s'.blocks.map Block.link = s.blocks.map Block.link := by
  rcases enter_inv h with ⟨rfl, -⟩ | ⟨-, -, vars, n, -, rfl⟩
  · rfl
  generalize s.pending.filter (·.target == id) = incoming
  generalize s.blocks = blocks
  induction incoming generalizing blocks with
  | nil => rfl
  | cons d rest ih =>
      rw [foldl_cons, ih, List.map_map]
      refine map_congr_left fun b _ => ?_
      simp only [Function.comp_apply]
      split <;> rfl

theorem spillBack_induction {entries} {P : Block → Prop} (h : P b)
    (hstep : ∀ t vars c, entries.lookup t = some vars → P c → P (appendSpills vars c.stack c)) :
    P (spillBack entries b) := by
  unfold spillBack
  generalize b.succs = succs
  induction succs generalizing b with
  | nil => exact h
  | cons t succs ih =>
      rw [foldl_cons]
      apply ih
      cases ht : entries.lookup t with
      | none => exact h
      | some vars => exact hstep t vars b ht h

theorem link_spillBack (entries : List (BlockId × SpillVars)) (b : Block) : (spillBack entries b).link = b.link :=
  spillBack_induction (P := fun c => c.link = b.link) rfl fun _ _ _ _ h => h

theorem simulateBlock_ascending {block : BasicBlock} (h : simulateBlock ctx p s block = .ok s')
    (ha : Block.Ascending s.blocks) : Block.Ascending s'.blocks := by
  obtain ⟨stack, s1, f, asked, exit, henter, -, -, rfl⟩ := simulateBlock_inv h
  exact (ha.of_map_id (Block.map_id_of_link (map_link_enter henter))).insert _

theorem simulateAll_ascending {order} (h : simulateAll ctx p s order = .ok s')
    (ha : Block.Ascending s.blocks) : Block.Ascending s'.blocks := by
  induction order generalizing s with
  | nil =>
      cases h
      exact ha
  | cons id rest ih =>
      unfold simulateAll at h
      split at h
      · exact ih h ha
      · obtain ⟨s1, hb, h⟩ := bind_eq_ok.mp h
        exact ih h (simulateBlock_ascending hb ha)

end Simulation

theorem simulate_ascending {ctx} {cf : ControlFlow} {asked : List String}
    (h : simulate ctx cf = .ok (blocks, asked)) : Block.Ascending blocks := by
  obtain ⟨s, hs, h⟩ := bind_eq_ok.mp h
  cases h
  have ha := Simulation.simulateAll_ascending hs (by simp [Block.Ascending, Simulation.State.initial])
  exact ha.of_map_id (Block.map_id_of_link (Duplicates.map_link_resolve ..))

end JvmLift
