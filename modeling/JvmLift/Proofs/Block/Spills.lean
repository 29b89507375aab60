import JvmLift.Proofs.Block.FlowKept
import JvmLift.Proofs.Meaning.Stores
import Mathlib.Data.List.Lattice
import Mathlib.Data.List.ReduceOption

/-!
# Stacks carried over in variables

A block that takes over stacks reads some of their entries from variables, and every block that leads to it stores
these entries behind its own statements, one after the other. Nothing is done to keep a store from disturbing a later
one.
-/
namespace JvmLift

open List

/-! ## Stores of a block -/

def Stmt.stackStore? : Stmt → Option (LocalVar × Expr)
  | .store v e => if v.origin = .stack then some (v, e) else none
  | _ => none

def Block.stackStores (b : Block) : List (LocalVar × Expr) := b.stmts.filterMap (·.stmt.stackStore?)

theorem Stmt.stackStore?_eq_none {s : Stmt} (h : s.writesStack = false) : s.stackStore? = none := by
  cases s <;> simp_all [writesStack, stackStore?]

theorem Block.stackStores_eq {b : Block} {own} {stores : List (LocalVar × Expr)}
    (h : b.stmts.map (·.stmt) = own ++ stores.map Simulation.storeOf) (hown : ∀ s ∈ own, s.writesStack = false)
    (hstack : ∀ s ∈ stores, s.1.origin = .stack) : b.stackStores = stores := by
  have hmap : b.stackStores = (b.stmts.map (·.stmt)).filterMap Stmt.stackStore? := by
    rw [filterMap_map]
    rfl
  have hown : own.filterMap Stmt.stackStore? = [] :=
    filterMap_eq_nil_iff.mpr fun s hs => Stmt.stackStore?_eq_none (hown s hs)
  rw [hmap, h, filterMap_append, hown, filterMap_map]
  refine (filterMap_congr fun s hs => ?_).trans filterMap_some
  simp [Simulation.storeOf, Stmt.stackStore?, hstack s hs]

namespace Simulation

/-! ## Where a block starts -/

/-- The stack a block starts with and the variables that keep its entries, if it takes over stacks. -/
def startOf (ctx : MethodContext) (cf : ControlFlow) (t : BlockId) : Option (List Expr × SpillVars) := do
  guard (t ∈ cf.reversePostorder)
  let s ← (simulateAll ctx (.ofFlow cf) .initial (cf.reversePostorder.takeWhile (· != t))).toOption
  let (stack, s) ← (enter (.ofFlow cf) s t).toOption
  let vars ← s.entries.lookup t
  return (stack, vars)

def startVars (ctx : MethodContext) (cf : ControlFlow) (t : BlockId) : SpillVars :=
  ((startOf ctx cf t).map (·.2)).getD []

section

variable {ctx : MethodContext} {p : Plan} {s s' : State} {t : BlockId}

theorem simulateAll_append {xs ys} (h : simulateAll ctx p s (xs ++ ys) = .ok s') :
    ∃ s1, simulateAll ctx p s xs = .ok s1 ∧ simulateAll ctx p s1 ys = .ok s' := by
  induction xs generalizing s with
  | nil => exact ⟨s, rfl, h⟩
  | cons id xs ih =>
      rw [cons_append, simulateAll] at h
      rw [simulateAll]
      split at h
      · exact ih h
      · obtain ⟨s1, hs1, h⟩ := bind_eq_ok.mp h
        obtain ⟨s2, hs2, h⟩ := ih h
        exact ⟨s2, bind_eq_ok.mpr ⟨s1, hs1, hs2⟩, h⟩

variable {stack : List Expr}

theorem lookup_enter {id} (h : enter p s id = .ok (stack, s')) (hne : t ≠ id) :
    s'.entries.lookup t = s.entries.lookup t := by
  rcases enter_inv h with ⟨rfl, -⟩ | ⟨-, -, vars, n, -, rfl⟩
  · rfl
  · simp [lookup_noted, hne]

variable {order : List BlockId}

theorem lookup_simulateAll (h : simulateAll ctx p s order = .ok s') (ht : t ∉ order) :
    s'.entries.lookup t = s.entries.lookup t := by
  induction order generalizing s with
  | nil =>
      cases h
      rfl
  | cons id rest ih =>
      rw [mem_cons, not_or] at ht
      rw [simulateAll] at h
      split at h
      · exact ih h ht.2
      · rename_i block hblock
        obtain ⟨s1, hs1, h⟩ := bind_eq_ok.mp h
        obtain ⟨stack, s2, f, asked, exit, henter, -, -, rfl⟩ := simulateBlock_inv hs1
        rw [ih h ht.2, ← lookup_enter henter ((ControlFlow.block?_some hblock).2 ▸ ht.1)]

theorem exists_enter (h : simulateAll ctx p s order = .ok s') (hnodup : order.Nodup) (ht : t ∈ order)
    (hblock : (p.flow.block? t).isSome = true) :
    ∃ s0 stack s1, simulateAll ctx p s (order.takeWhile (· != t)) = .ok s0 ∧ enter p s0 t = .ok (stack, s1) ∧
    s'.entries.lookup t = s1.entries.lookup t := by
  obtain ⟨before, after, rfl⟩ := append_of_mem ht
  obtain ⟨-, hafter, hdisjoint⟩ := nodup_append.mp hnodup
  have hbefore : (before ++ t :: after).takeWhile (· != t) = before := by
    rw [takeWhile_append_of_pos, takeWhile_cons_of_neg (by simp), append_nil]
    exact fun id hid => by simpa using hdisjoint id hid t mem_cons_self
  obtain ⟨s0, hs0, h⟩ := simulateAll_append h
  obtain ⟨block, hblock⟩ := Option.isSome_iff_exists.mp hblock
  simp only [simulateAll, hblock] at h
  obtain ⟨s2, hs2, h⟩ := bind_eq_ok.mp h
  obtain ⟨stack, s1, f, asked, exit, henter, -, -, rfl⟩ := simulateBlock_inv hs2
  rw [(ControlFlow.block?_some hblock).2] at henter
  have hlookup := lookup_simulateAll h (nodup_cons.mp hafter).1
  exact ⟨s0, stack, s1, by rw [hbefore, hs0], henter, hlookup⟩

end

section

variable {ctx : MethodContext} {cf : ControlFlow} {s : State}

variable (h : simulateAll ctx (.ofFlow cf) .initial cf.reversePostorder = .ok s)
  (hledger : s.Ledger (.ofFlow cf) (s.blocks.map (·.id)))

include h hledger

theorem startOf_eq {t} (ht : t ∈ cf.reversePostorder) :
    ∃ start, startOf ctx cf t = (s.entries.lookup t).map (start, ·) ∧
      ∀ vars, s.entries.lookup t = some vars → List.Forall₂ Reads start vars := by
  obtain ⟨s0, start, s1, hs0, henter, hlookup⟩ :=
    exists_enter h cf.flowGraph.nodup_reversePostorder ht (ControlFlow.isBlock_of_mem_reversePostorder ht)
  refine ⟨start, ?_, fun vars hvars => ?_⟩
  · simp [startOf, ht, hs0, henter, hlookup, Except.toOption, Option.map_eq_bind]
  · obtain ⟨-, hhandler, hsub⟩ := (hledger.noted t).mp (hvars ▸ rfl)
    rcases enter_inv henter with ⟨-, hown⟩ | ⟨-, -, vars', n, hmerge, rfl⟩
    · simp [hhandler, hsub] at hown
    · have hsame : vars' = vars := by simpa [hvars, eq_comm] using hlookup
      exact hsame ▸ (mergeStacks_inv hmerge).1

theorem startVars_eq (t : BlockId) : startVars ctx cf t = varsAt s.entries t := by
  by_cases ht : t ∈ cf.reversePostorder
  · obtain ⟨start, hstart, -⟩ := startOf_eq h hledger ht
    rw [startVars, hstart, varsAt]
    cases s.entries.lookup t <;> rfl
  · have hnone : s.entries.lookup t = none := by
      rw [← Option.not_isSome_iff_eq_none, hledger.noted]
      exact fun hseen => ht (hledger.within t hseen.1)
    simp [startVars, startOf, ht, varsAt, hnone]

end

/-! ## Numbers of variables -/

def stackPlace (i : Nat) : Place := (.stack, UInt16.ofNat i)

def Numbered (a : Nat) (vars : List LocalVar) : Prop :=
  vars.map (·.place) = (range' a vars.length).map stackPlace

theorem Numbered.append {a xs ys} (hx : Numbered a xs) (hy : Numbered (a + xs.length) ys) : Numbered a (xs ++ ys) := by
  unfold Numbered at *
  rw [map_append, hx, hy, length_append, ← map_append, range'_append_1]

theorem Numbered.nodup {vars} (h : Numbered 0 vars) (hfew : vars.length ≤ 2 ^ 16) : (vars.map (·.place)).Nodup := by
  rw [h]
  refine (nodup_range' 1).map_on fun i hi j hj heq => ?_
  rw [mem_range'_1] at hi hj
  have hsize : UInt16.size = 2 ^ 16 := rfl
  have hnat := congrArg UInt16.toNat (Prod.mk.inj heq).2
  rwa [UInt16.toNat_ofNat_of_lt' (by omega), UInt16.toNat_ofNat_of_lt' (by omega)] at hnat

theorem numbered_mergeEntries (allSeen : Bool) (a : Nat) (incoming : List (List Expr)) (first : List Expr) :
    Numbered a (mergeEntries allSeen (.ofNat a) incoming first).2.1.reduceOption ∧
      (mergeEntries allSeen (.ofNat a) incoming first).2.2 =
        .ofNat (a + (mergeEntries allSeen (.ofNat a) incoming first).2.1.reduceOption.length) := by
  induction first generalizing a incoming with
  | nil => exact ⟨rfl, rfl⟩
  | cons e rest ih =>
      simp only [mergeEntries, mergeEntry]
      split
      · exact ih a _
      · obtain ⟨hrest, hnext⟩ := ih (a + 1) (incoming.map List.tail)
        rw [UInt16.ofNat_add] at hrest hnext
        refine ⟨?_, ?_⟩
        · have hfirst (t : ErasedType) : Numbered a [.ofStack (.ofNat a) t] := rfl
          exact (hfirst _).append hrest
        · rw [reduceOption_cons_of_some, length_cons, Nat.add_comm _ 1, ← Nat.add_assoc]
          exact hnext

theorem numbered_mergeStacks {id incoming preds a n vars}
    (h : mergeStacks id incoming preds (.ofNat a) = .ok (stack, vars, n)) :
    Numbered a vars.reduceOption ∧ n = .ofNat (a + vars.reduceOption.length) := by
  unfold mergeStacks at h
  split at h
  · cases h
    exact ⟨rfl, rfl⟩
  · rename_i first rest
    split at h
    · cases h
    · have hnumbered := numbered_mergeEntries (preds ≤ (first :: rest).length) a (first :: rest) first
      rw [Except.ok.inj h] at hnumbered
      exact hnumbered

section

variable {ctx : MethodContext} {p : Plan} {s s' : State} {a : Nat}

theorem numbered_simulateBlock {block} (h : simulateBlock ctx p s block = .ok s')
    (hnew : s.entries.lookup block.id = none) (ha : s.nextStack = .ofNat a) :
    Numbered a (varsAt s'.entries block.id).reduceOption ∧
      s'.nextStack = .ofNat (a + (varsAt s'.entries block.id).reduceOption.length) := by
  obtain ⟨stack, s1, f, asked, exit, henter, -, -, rfl⟩ := simulateBlock_inv h
  rcases enter_inv henter with ⟨rfl, -⟩ | ⟨-, -, vars, n, hmerge, rfl⟩
  · simp only [varsAt, hnew]
    exact ⟨rfl, ha⟩
  · simp only [varsAt, lookup_cons_self]
    exact numbered_mergeStacks (ha ▸ hmerge)

theorem numbered_simulateAll (h : simulateAll ctx p s order = .ok s') (hnodup : order.Nodup)
    (hnew : ∀ t ∈ order, s.entries.lookup t = none) (ha : s.nextStack = .ofNat a) :
    Numbered a (order.flatMap fun t => (varsAt s'.entries t).reduceOption) := by
  induction order generalizing s a with
  | nil => rfl
  | cons id rest ih =>
      rw [nodup_cons] at hnodup
      rw [forall_mem_cons] at hnew
      rw [flatMap_cons]
      rw [simulateAll] at h
      split at h
      · have hnone : varsAt s'.entries id = [] := by rw [varsAt, lookup_simulateAll h hnodup.1, hnew.1, Option.getD_none]
        rw [hnone]
        exact ih h hnodup.2 hnew.2 ha
      · rename_i block hblock
        obtain ⟨s1, hs1, h⟩ := bind_eq_ok.mp h
        obtain rfl := (ControlFlow.block?_some hblock).2
        obtain ⟨hown, hnext⟩ := numbered_simulateBlock hs1 hnew.1 ha
        have hkeep : varsAt s'.entries block.id = varsAt s1.entries block.id := by
          rw [varsAt, lookup_simulateAll h hnodup.1, varsAt]
        have hnew1 : ∀ t ∈ rest, s1.entries.lookup t = none := by
          intro t ht
          obtain ⟨stack, s2, f, asked, exit, henter, -, -, rfl⟩ := simulateBlock_inv hs1
          exact (lookup_enter henter fun heq => hnodup.1 (heq ▸ ht)).trans (hnew.2 t ht)
        rw [hkeep]
        exact hown.append (ih h hnodup.2 hnew1 hnext)

end

theorem map_fst_spilled_sublist (vars : SpillVars) (stack : List Expr) :
    ((spilled vars stack).map (·.1)).Sublist vars.reduceOption := by
  induction vars generalizing stack with
  | nil => simp [spilled]
  | cons v vars ih =>
      cases stack with
      | nil => simp [spilled]
      | cons e stack =>
          cases v with
          | none => exact ih stack
          | some v => exact (ih stack).cons_cons v

theorem spilled_map (g : Expr → Expr) (vars : SpillVars) (stack : List Expr) :
    spilled vars (stack.map g) = (spilled vars stack).map fun s => (s.1, g s.2) := by
  induction vars generalizing stack with
  | nil => simp [spilled]
  | cons v vars ih =>
      cases stack with
      | nil => simp [spilled]
      | cons e stack => cases v <;> simpa [spilled] using ih stack

theorem State.Ledger.origin_of_mem_spilled {p seen} {s : State} (h : s.Ledger p seen)
    {t st} (hst : st ∈ spilled (varsAt s.entries t) stack) : st.1.origin = .stack := by
  have hmem := (map_fst_spilled_sublist _ _).subset (mem_map_of_mem hst)
  rw [reduceOption_mem_iff] at hmem
  cases hvars : s.entries.lookup t with
  | none => simp [varsAt, hvars] at hmem
  | some vars => exact h.vars t vars hvars _ (by simpa [varsAt, hvars] using hmem)

theorem Stores.perm_flatMap {α entries b own tail reached} (h : Stores entries b own tail reached) {f : BlockId → List α}
    (hf : ∀ t, entries.lookup t = none → f t = []) : (reached.flatMap f).Perm (b.succs.flatMap f) := by
  have hreached : reached.Perm (b.succs.filter fun t => (entries.lookup t).isSome) := by
    refine (perm_ext_iff_of_nodup h.nodup ((nodup_targets b.exit).filter _)).mpr fun t => ?_
    rw [h.reached, mem_filter, Block.succs]
  have hrest : (b.succs.filter fun t => !(entries.lookup t).isSome).flatMap f = [] := by
    refine flatMap_eq_nil_iff.mpr fun t ht => hf t ?_
    simpa using (mem_filter.mp ht).2
  have hall := (filter_append_perm (fun t => (entries.lookup t).isSome) b.succs).flatMap_right f
  rw [flatMap_append, hrest, append_nil] at hall
  exact (hreached.flatMap_right f).trans hall

def unspilled (vars : SpillVars) (stack : List Expr) : List Expr :=
  (vars.zip stack).filterMap fun (v, e) => if v.isNone then some e else none

end Simulation

/-! ## All blocks -/

/-- What is evaluated behind the stores of a block: what its exit decides by, and the entries of its stack that
its successors take over as they are. -/
def Block.held (ctx : MethodContext) (cf : ControlFlow) (b : Block) : List Expr :=
  b.exit.operand?.toList ++ b.succs.flatMap fun t => Simulation.unspilled (Simulation.startVars ctx cf t) b.stack

section

open Simulation

variable {ctx : MethodContext} {cf : ControlFlow} {blocks : List Block} {asked : List String} {b : Block}

theorem stackStores_simulate (h : simulate ctx cf = .ok (blocks, asked)) (hb : b ∈ blocks) :
    (∃ own : List Stmt, b.stmts.map (·.stmt) = own ++ b.stackStores.map storeOf ∧ ∀ s ∈ own, s.writesStack = false) ∧
      b.stackStores.Perm (b.succs.flatMap fun t => spilled (startVars ctx cf t) b.stack) := by
  obtain ⟨s, hs, hledger, -, -, hsettled⟩ := simulate_ledger h
  obtain ⟨c, hc, g, hcb⟩ := hsettled b hb
  obtain ⟨own, tail, reached, hstores⟩ := hledger.stores c hc
  have horigin : ∀ st ∈ reached.flatMap fun t => spilled (varsAt s.entries t) c.stack, st.1.origin = .stack := by
    intro st hst
    obtain ⟨t, -, hst⟩ := mem_flatMap.mp hst
    exact hledger.origin_of_mem_spilled hst
  obtain ⟨own', hown', hstmts⟩ := hcb.stmts own tail _ hstores.stmts hstores.own hstores.tail horigin
  have hsettle : (reached.flatMap fun t => spilled (varsAt s.entries t) c.stack).map (fun st => (st.1, g st.2)) =
      reached.flatMap fun t => spilled (startVars ctx cf t) b.stack := by
    simp only [map_flatMap, hcb.stack, spilled_map, startVars_eq hs hledger]
  have hstmts : b.stmts.map (·.stmt) =
      own' ++ (reached.flatMap fun t => spilled (startVars ctx cf t) b.stack).map storeOf := by
    rw [hstmts, ← hsettle, List.map_map]
    rfl
  have heq : b.stackStores = reached.flatMap fun t => spilled (startVars ctx cf t) b.stack := by
    refine Block.stackStores_eq hstmts hown' ?_
    rw [← hsettle, forall_mem_map]
    exact horigin
  refine ⟨⟨own', heq ▸ hstmts, hown'⟩, ?_⟩
  rw [heq, hcb.succs]
  refine hstores.perm_flatMap fun t ht => ?_
  simp [startVars_eq hs hledger, varsAt, ht, spilled]

/-- All variables of a method are different unless there are too many to be numbered. -/
theorem nodup_stackStores (h : simulate ctx cf = .ok (blocks, asked)) (hb : b ∈ blocks)
    (hfew : (cf.reversePostorder.flatMap fun t => (startVars ctx cf t).reduceOption).length ≤ 2 ^ 16) :
    (b.stackStores.map (·.1.place)).Nodup := by
  obtain ⟨s, hs, hledger, -, -, -⟩ := simulate_ledger h
  have hnumbered : Numbered 0 (cf.reversePostorder.flatMap fun t => (startVars ctx cf t).reduceOption) := by
    simp only [startVars_eq hs hledger]
    exact numbered_simulateAll hs cf.flowGraph.nodup_reversePostorder (fun _ _ => rfl) rfl
  have hnodup := hnumbered.nodup hfew
  rw [map_flatMap, nodup_flatMap] at hnodup
  obtain ⟨hown, hdisjoint⟩ := hnodup
  have hsublist (t : BlockId) : ((spilled (startVars ctx cf t) b.stack).map (·.1.place)).Sublist
      ((startVars ctx cf t).reduceOption.map (·.place)) := by
    have hmap := (map_fst_spilled_sublist (startVars ctx cf t) b.stack).map (·.place)
    rwa [List.map_map] at hmap
  have hin {t : BlockId} {x : Place} (hx : x ∈ (spilled (startVars ctx cf t) b.stack).map (·.1.place)) :
      t ∈ cf.reversePostorder := by
    by_contra ht
    simp [startVars, startOf, ht, spilled] at hx
  refine ((stackStores_simulate h hb).2.map _).nodup_iff.mpr ?_
  rw [map_flatMap, nodup_flatMap]
  refine ⟨fun t _ => ?_, (nodup_targets b.exit).imp fun hne x hx hx' => ?_⟩
  · by_cases ht : t ∈ cf.reversePostorder
    · exact (hown t ht).sublist (hsublist t)
    · rw [eq_nil_iff_forall_not_mem.mpr fun x hx => ht (hin hx)]
      exact .nil
  · have : Std.Symm (Function.onFun List.Disjoint fun t => (startVars ctx cf t).reduceOption.map (·.place)) :=
      ⟨fun _ _ => List.Disjoint.symm⟩
    exact hdisjoint.forall (hin hx) (hin hx') hne ((hsublist _).subset hx) ((hsublist _).subset hx')

/-- Every successor that takes over the stack reads the variables in which it is stored. The stores carry over
the stack along all edges, whatever expressions mean, if and only if nothing is disturbed. The block then
branches as it would without the stores. -/
theorem spills_carry_over (h : simulate ctx cf = .ok (blocks, asked)) (hb : b ∈ blocks) :
    (cf.Terminated → ∀ t, t ∈ cf.succs b.id ↔ t ∈ b.succs ∧ t ∈ cf.reversePostorder) ∧
    (∀ t ∈ b.succs, t ∈ cf.reversePostorder → (∀ e ∈ cf.handlers, e.handler ≠ t) → t ∉ cf.subroutines →
      ∃ start, startOf ctx cf t = some (start, startVars ctx cf t) ∧ start.length = b.stack.length ∧
        List.Forall₂ Reads start (startVars ctx cf t)) ∧
    ((∃ own : List Stmt, b.stmts.map (·.stmt) = own ++ b.stackStores.map storeOf ∧ ∀ s ∈ own, s.writesStack = false) ∧
      b.stackStores.Perm (b.succs.flatMap fun t => spilled (startVars ctx cf t) b.stack)) ∧
    ((cf.reversePostorder.flatMap fun t => (startVars ctx cf t).reduceOption).length ≤ 2 ^ 16 →
      (b.stackStores.map (·.1.place)).Nodup) ∧
    ((b.stackStores.map (·.1.place)).Nodup →
      ((∀ (V W : Type) (E : Evaluator V W) (x : Memory V W), E.CarriesOver b.stackStores (b.held ctx cf) x) ↔
        Undisturbed b.stackStores (b.held ctx cf)) ∧
      (Undisturbed b.stackStores (b.held ctx cf) → ∀ (V H : Type) (M : Model V H) (ds : Duplicates) (σ : Env V)
        (w : World V H) (tail : List Located), tail.map (·.stmt) = b.stackStores.map storeOf →
          let r := M.execAll ds σ tail w
          (M.decide r.env b.exit r.world).1 = (M.decide σ b.exit w).1)) := by
  obtain ⟨s, hs, hledger, hreached, hids, hsettled⟩ := simulate_ledger h
  refine ⟨fun hends t => ?_, fun t ht horder hhandler hsub => ?_, stackStores_simulate h hb, nodup_stackStores h hb,
    fun hnodup => ⟨carriesOver_iff_undisturbed hnodup, fun hun V H M ds σ w tail htail => ?_⟩⟩
  · obtain ⟨block, hblock, -, hsuccs⟩ := simulate_exits hends h hb
    have hmem : b.id ∈ cf.reversePostorder := (hreached b.id).mp (hids ▸ List.mem_map_of_mem hb)
    simp only [ControlFlow.succs, hblock, List.mem_filter, hsuccs]
    refine and_congr_right fun ht => ⟨fun hisBlock => ?_, ControlFlow.isBlock_of_mem_reversePostorder⟩
    exact ControlFlow.mem_reversePostorder_of_succ hmem hblock ht hisBlock
  · obtain ⟨vars, hvars⟩ := hledger.exists_vars ((hreached t).mpr horder) hhandler hsub
    obtain ⟨start, hstart, hreads⟩ := startOf_eq hs hledger horder
    obtain ⟨c, hc, g, hcb⟩ := hsettled b hb
    have hsame : startVars ctx cf t = vars := by simp [startVars_eq hs hledger, varsAt, hvars]
    rw [hsame]
    refine ⟨start, by rw [hstart, hvars, Option.map_some], ?_, hreads vars hvars⟩
    rw [(hreads vars hvars).length_eq, hledger.height_of_settledBy hc hcb ht hvars]
  · refine M.decide_execAll_stores ds htail hnodup hun (fun e he => ?_) σ w
    exact List.mem_append_left _ (Option.mem_toList.mpr he)

end

theorem spills_carry_summing : ∃ blocks asked,
    simulate Discipline.context (.build Discipline.summing [] []) = .ok (blocks, asked) ∧
    ∀ b ∈ blocks, ∀ (V W : Type) (E : Evaluator V W) (x : Memory V W),
      E.CarriesOver b.stackStores (b.held Discipline.context (.build Discipline.summing [] [])) x := by
  have hsimulate : (simulate Discipline.context (.build Discipline.summing [] [])).map (fun r => r.1.all fun b =>
      decide ((b.stackStores.map (·.1.place)).Nodup ∧
        Undisturbed b.stackStores (b.held Discipline.context (.build Discipline.summing [] [])))) = .ok true := by
    decide +kernel
  obtain ⟨⟨blocks, asked⟩, hs, hall⟩ := map_eq_ok.mp hsimulate
  refine ⟨blocks, asked, hs, fun b hb => ?_⟩
  obtain ⟨-, -, -, -, hcarries⟩ := spills_carry_over hs hb
  obtain ⟨hnodup, hundisturbed⟩ := of_decide_eq_true (List.all_eq_true.mp hall b hb)
  exact (hcarries hnodup).1.mpr hundisturbed

namespace Discipline

/-- Two entries of the stack are swapped around a loop. -/
def swapping : List Instruction :=
  [⟨0, 0x04, 1, .intConst 1⟩, ⟨1, 0x05, 1, .intConst 2⟩, ⟨2, 0x5f, 1, .swap⟩, ⟨3, 0x1a, 1, .load .int 0⟩,
    ⟨4, 0x9a, 3, .ifZero .ne 2⟩, ⟨7, 0x64, 1, .arith .int .sub⟩, ⟨8, 0xac, 1, .leave (some .int)⟩]

end Discipline

/-- Where entries are swapped around a loop, the second store reads what the first one has written, and an entry
is lost. -/
theorem spills_lose_swapped : ∃ blocks asked bottom top, ∃ b ∈ blocks,
    simulate Discipline.context (.build Discipline.swapping [] []) = .ok (blocks, asked) ∧
    b.id = 2 ∧ b.succs = [2, 7] ∧ b.stack = [.localVar top, .localVar bottom] ∧
    Simulation.startVars Discipline.context (.build Discipline.swapping [] []) 2 = [some bottom, some top] ∧
    ∀ (V H : Type) (M : Model V H) (ds : Duplicates) (σ : Env V) (w : World V H),
      σ.vars bottom.place ≠ σ.vars top.place →
      (M.execAll ds σ b.stmts w).env.vars top.place ≠ (M.eval σ (.localVar bottom) w).1 := by
  have hsimulate : (simulate Discipline.context (.build Discipline.swapping [] [])).map (fun r =>
      (r.1.find? (·.id == 2)).map fun b => (b.stmts.map (·.stmt), b.succs, b.stack)) =
      .ok (some ([.store (.ofStack 0 .int) (.localVar (.ofStack 1 .int)),
        .store (.ofStack 1 .int) (.localVar (.ofStack 0 .int))], [2, 7],
        [.localVar (.ofStack 1 .int), .localVar (.ofStack 0 .int)])) := by rfl
  obtain ⟨⟨blocks, asked⟩, hs, hfind⟩ := map_eq_ok.mp hsimulate
  obtain ⟨b, hb, hshape⟩ := Option.map_eq_some_iff.mp hfind
  simp only [Prod.mk.injEq] at hshape
  obtain ⟨hstmts, hsuccs, hstack⟩ := hshape
  refine ⟨blocks, asked, .ofStack 0 .int, .ofStack 1 .int, b, List.mem_of_find?_eq_some hb, hs, ?_, hsuccs, hstack,
    by decide +kernel, fun V H M ds σ w hne => ?_⟩
  · simpa using List.find?_some hb
  · have hstores : b.stmts.map (·.stmt) = [(LocalVar.ofStack 0 .int, Expr.localVar (.ofStack 1 .int)),
        (.ofStack 1 .int, .localVar (.ofStack 0 .int))].map fun s => .store s.1 s.2 := hstmts
    rw [M.execAll_stores ds hstores]
    simpa [Evaluator.storeAll, Evaluator.store, Model.evaluator, Model.eval, Memory.set, LocalVar.place,
      LocalVar.ofStack] using hne.symm

end JvmLift
