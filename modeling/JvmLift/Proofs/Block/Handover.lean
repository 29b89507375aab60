import JvmLift.Proofs.Block.Exits
import JvmLift.Proofs.Block.Resolved

/-!
# How blocks hand over their stacks

A block leaves its stack for its successors, and stores it once for every successor that takes it over, behind its own
statements. All stacks that a block takes over have the height it was entered with.
-/
namespace JvmLift

open List

variable {vars : SpillVars} {b : Block}

namespace Simulation

/-! ## Merged stacks -/

def Reads (e : Expr) (v : Option LocalVar) : Prop := ∀ x ∈ v, e = .localVar x ∧ x.origin = .stack

theorem reads_mergeEntry (allSeen : Bool) (n : UInt16) (values : List Expr) (first : Expr) :
    Reads (mergeEntry allSeen n values first).1 (mergeEntry allSeen n values first).2.1 := by
  unfold mergeEntry
  split
  · exact nofun
  · rintro _ ⟨⟩
    exact ⟨rfl, rfl⟩

theorem reads_mergeEntries (allSeen : Bool) (n : UInt16) (incoming : List (List Expr)) (first : List Expr) :
    List.Forall₂ Reads (mergeEntries allSeen n incoming first).1 (mergeEntries allSeen n incoming first).2.1 ∧
      (mergeEntries allSeen n incoming first).1.length = first.length := by
  induction first generalizing n incoming with
  | nil => exact ⟨.nil, rfl⟩
  | cons e rest ih =>
      obtain ⟨hreads, hlen⟩ := ih (mergeEntry allSeen n (incoming.filterMap head?) e).2.2 (incoming.map List.tail)
      have hentry := reads_mergeEntry allSeen n (incoming.filterMap head?) e
      exact ⟨.cons hentry hreads, congrArg (· + 1) hlen⟩

variable {stack : List Expr}

theorem origin_of_reads (h : List.Forall₂ Reads stack vars) {v} (hv : some v ∈ vars) : v.origin = .stack := by
  induction h with
  | nil => cases hv
  | cons hread _ ih =>
      rcases mem_cons.mp hv with rfl | hv
      · exact (hread v rfl).2
      · exact ih hv

variable {id : BlockId}

theorem mergeStacks_inv {incoming preds n n'} (h : mergeStacks id incoming preds n = .ok (stack, vars, n')) :
    List.Forall₂ Reads stack vars ∧ ∀ s ∈ incoming, vars.length = s.length := by
  unfold mergeStacks at h
  split at h
  · cases h
    exact ⟨.nil, nofun⟩
  · rename_i first rest
    split at h
    · cases h
    · rename_i hsame
      have hmerged := reads_mergeEntries (preds ≤ (first :: rest).length) n (first :: rest) first
      rw [Except.ok.inj h] at hmerged
      refine ⟨hmerged.1, fun s hs => ?_⟩
      have hlen : s.length = first.length := by simpa using find?_eq_none.mp hsame s hs
      rw [← hmerged.1.length_eq, hmerged.2, hlen]

/-! ## Stores for successors -/

def spilled (vars : SpillVars) (stack : List Expr) : List (LocalVar × Expr) :=
  (vars.zip stack).filterMap fun (v, e) => v.map (·, e)

def storeOf (s : LocalVar × Expr) : Stmt := .store s.1 s.2

def varsAt (entries : List (BlockId × SpillVars)) (t : BlockId) : SpillVars := (entries.lookup t).getD []

theorem map_stmt_spills (stop : Nat) (vars : SpillVars) (stack : List Expr) :
    (spills stop vars stack).map (·.stmt) = (spilled vars stack).map storeOf := by
  unfold spills spilled
  rw [map_filterMap, map_filterMap]
  congr 1
  funext x
  obtain ⟨v, e⟩ := x
  cases v <;> rfl

/-- Behind its own statements, a block stores its stack for the successors in `reached`, those whose
variables are noted. -/
structure Stores (entries : List (BlockId × SpillVars)) (b : Block) (own tail : List Located)
    (reached : List BlockId) : Prop where
  stmts : b.stmts = own ++ tail
  own : ∀ s ∈ own, s.stmt.writesStack = false
  tail : tail.map (·.stmt) = (reached.flatMap fun t => spilled (varsAt entries t) b.stack).map storeOf
  nodup : reached.Nodup
  reached : ∀ t, t ∈ reached ↔ t ∈ b.succs ∧ (entries.lookup t).isSome = true

theorem lookup_noted (entries : List (BlockId × SpillVars)) (id : BlockId) (vars : SpillVars) (t : BlockId) :
    ((id, vars) :: entries).lookup t = if t = id then some vars else entries.lookup t := by
  by_cases ht : t = id
  · simp [ht]
  · simp [lookup_cons, beq_false_of_ne ht, ht]

def storeFor (id : BlockId) (vars : SpillVars) (b : Block) : Block :=
  if id ∈ b.succs then appendSpills vars b.stack b else b

section

variable (id : BlockId) (vars : SpillVars) (b : Block)

@[simp] theorem id_storeFor : (storeFor id vars b).id = b.id := by unfold storeFor; split <;> rfl

@[simp] theorem exit_storeFor : (storeFor id vars b).exit = b.exit := by unfold storeFor; split <;> rfl

@[simp] theorem stack_storeFor : (storeFor id vars b).stack = b.stack := by unfold storeFor; split <;> rfl

@[simp] theorem succs_storeFor : (storeFor id vars b).succs = b.succs := by rw [Block.succs, exit_storeFor, Block.succs]

end

section

variable {entries : List (BlockId × SpillVars)} {b : Block} {own tail : List Located} {reached : List BlockId}

theorem Stores.storeFor (h : Stores entries b own tail reached) (hnew : entries.lookup id = none)
    (vars : SpillVars) : ∃ tail' reached', Stores ((id, vars) :: entries) (storeFor id vars b) own tail' reached' := by
  have hnot : id ∉ reached := fun hid => by simpa [hnew] using ((h.reached id).mp hid).2
  have hsame : (reached.flatMap fun t => spilled (varsAt ((id, vars) :: entries) t) b.stack) =
      reached.flatMap fun t => spilled (varsAt entries t) b.stack := by
    refine flatMap_congr fun t ht => ?_
    have hne : t ≠ id := fun heq => hnot (heq ▸ ht)
    simp [varsAt, lookup_noted, hne]
  by_cases hid : id ∈ b.succs
  · refine ⟨tail ++ spills b.stop vars b.stack, reached ++ [id], ?_, h.own, ?_, ?_, fun t => ?_⟩
    · simp [Simulation.storeFor, hid, appendSpills, h.stmts]
    · have hvars : varsAt ((id, vars) :: entries) id = vars := by simp [varsAt]
      rw [stack_storeFor, map_append, map_stmt_spills, h.tail, flatMap_append, hsame, map_append,
        flatMap_singleton, hvars]
    · refine nodup_append.mpr ⟨h.nodup, pairwise_singleton _ id, fun t ht t' ht' heq => hnot ?_⟩
      rwa [← mem_singleton.mp ht', ← heq]
    · rw [mem_append, h.reached]
      by_cases ht : t = id <;> simp [ht, hid]
  · refine ⟨tail, reached, ?_, h.own, ?_, h.nodup, fun t => ?_⟩
    · simp [Simulation.storeFor, hid, h.stmts]
    · rw [stack_storeFor, hsame, h.tail]
    · rw [h.reached]
      by_cases ht : t = id <;> simp [ht, hid]

theorem spillBack_append (entries : List (BlockId × SpillVars)) (b : Block) :
    ∃ tail : List Located, spillBack entries b = { b with stmts := b.stmts ++ tail } ∧
      tail.map (·.stmt) = ((b.succs.filter fun t => (entries.lookup t).isSome).flatMap
        fun t => spilled (varsAt entries t) b.stack).map storeOf := by
  unfold spillBack
  generalize b.succs = ts
  induction ts generalizing b with
  | nil => exact ⟨[], by simp, rfl⟩
  | cons t ts ih =>
      rw [foldl_cons]
      cases ht : entries.lookup t with
      | none =>
          obtain ⟨tail, heq, htail⟩ := ih b
          exact ⟨tail, heq, by simpa [ht] using htail⟩
      | some vars =>
          obtain ⟨tail, heq, htail⟩ := ih (appendSpills vars b.stack b)
          refine ⟨spills b.stop vars b.stack ++ tail, ?_, ?_⟩
          · simpa [appendSpills] using heq
          · have hvars : varsAt entries t = vars := by simp [varsAt, ht]
            rw [map_append, map_stmt_spills, htail, filter_cons_of_pos (by simp [ht]), flatMap_cons,
              map_append, hvars]
            rfl

theorem stores_spillBack (entries : List (BlockId × SpillVars)) (hown : ∀ s ∈ b.stmts, s.stmt.writesStack = false)
    (hnodup : b.succs.Nodup) : ∃ tail reached, Stores entries (spillBack entries b) b.stmts tail reached := by
  obtain ⟨tail, heq, htail⟩ := spillBack_append entries b
  refine ⟨tail, b.succs.filter fun t => (entries.lookup t).isSome, ?_⟩
  rw [heq]
  exact ⟨rfl, hown, htail, hnodup.filter _, fun t => mem_filter⟩

end

/-! ## All blocks -/

theorem nodup_targets (x : Exit) : x.targets.Nodup := by
  cases x with
  | cond e t f =>
      show (if t = f then [t] else [t, f]).Nodup
      split
      · simp
      · simpa
  | switch e d cases => exact nodup_sortedSet _
  | _ => simp [Exit.targets]

/-- Every stack that leads to a block that waits for it is left there, once. -/
structure Waiting (p : Plan) (entries : List (BlockId × SpillVars)) (blocks : List Block) (pending : List Delivery) :
    Prop where
  mem_iff : ∀ d, d ∈ pending ↔ ∃ b ∈ blocks, ∃ t ∈ b.succs, awaits p entries t = true ∧ d = ⟨t, b.id, b.stack⟩
  once : (pending.map fun d => (d.target, d.source)).Nodup

section

variable {p : Plan} {entries : List (BlockId × SpillVars)} {blocks : List Block} {pending : List Delivery}

theorem awaits_noted {t} : awaits p ((id, vars) :: entries) t = true ↔ awaits p entries t = true ∧ t ≠ id := by
  unfold awaits
  by_cases ht : t = id <;> simp [ht]

variable (h : Waiting p entries blocks pending)

include h

theorem Waiting.filter_eq (hnodup : (blocks.map (·.id)).Nodup) (hwait : awaits p entries id = true) (hb : b ∈ blocks) :
    (pending.filter (·.target == id)).filter (·.source == b.id) =
      if id ∈ b.succs then [⟨id, b.id, b.stack⟩] else [] := by
  have hmem (d : Delivery) : d ∈ (pending.filter (·.target == id)).filter (·.source == b.id) ↔
      id ∈ b.succs ∧ d = ⟨id, b.id, b.stack⟩ := by
    simp only [mem_filter, beq_iff_eq, h.mem_iff]
    constructor
    · rintro ⟨⟨⟨c, hc, t, ht, -, rfl⟩, rfl⟩, hid⟩
      obtain rfl := Block.eq_of_id hnodup hc hb hid
      exact ⟨ht, rfl⟩
    · rintro ⟨hid, rfl⟩
      exact ⟨⟨⟨b, hb, id, hid, hwait, rfl⟩, rfl⟩, rfl⟩
  have hnodup : ((pending.filter (·.target == id)).filter (·.source == b.id)).Nodup :=
    ((List.Nodup.of_map _ h.once).filter _).filter _
  generalize (pending.filter (·.target == id)).filter (·.source == b.id) = ds at hmem hnodup
  split
  · rename_i hid
    cases ds with
    | nil => simpa using (hmem ⟨id, b.id, b.stack⟩).mpr ⟨hid, rfl⟩
    | cons d rest =>
        have hd := ((hmem d).mp mem_cons_self).2
        have hrest : rest = [] := eq_nil_iff_forall_not_mem.mpr fun e he => by
          have heq := ((hmem e).mp (mem_cons_of_mem _ he)).2
          exact (nodup_cons.mp hnodup).1 (hd.trans heq.symm ▸ he)
        rw [hd, hrest]
  · rename_i hid
    exact eq_nil_iff_forall_not_mem.mpr fun d hd => hid ((hmem d).mp hd).1

theorem Waiting.enter (id : BlockId) (vars : SpillVars) :
    Waiting p ((id, vars) :: entries) (blocks.map (storeFor id vars)) (pending.filter (·.target != id)) := by
  refine ⟨fun d => ?_, h.once.sublist (filter_sublist.map _)⟩
  rw [mem_filter, h.mem_iff]
  constructor
  · rintro ⟨⟨b, hb, t, ht, hw, rfl⟩, hne⟩
    refine ⟨storeFor id vars b, mem_map_of_mem hb, t, by simpa using ht, ?_, by simp⟩
    exact awaits_noted.mpr ⟨hw, by simpa using hne⟩
  · rintro ⟨c, hc, t, ht, hw, rfl⟩
    obtain ⟨b, hb, rfl⟩ := mem_map.mp hc
    obtain ⟨hw, hne⟩ := awaits_noted.mp hw
    exact ⟨⟨b, hb, t, by simpa using ht, hw, by simp⟩, by simpa using hne⟩

theorem Waiting.leave (hfresh : ∀ c ∈ blocks, c.id ≠ b.id)
    {blocks'} (hmem : ∀ c, c ∈ blocks' ↔ c = b ∨ c ∈ blocks) : Waiting p entries blocks'
      (pending ++ (b.succs.filter (awaits p entries)).map fun t => ⟨t, b.id, b.stack⟩) := by
  refine ⟨fun d => ?_, ?_⟩
  · rw [mem_append, h.mem_iff]
    constructor
    · rintro (⟨c, hc, t, ht, hw, rfl⟩ | hd)
      · exact ⟨c, (hmem c).mpr (.inr hc), t, ht, hw, rfl⟩
      · obtain ⟨t, ht, rfl⟩ := mem_map.mp hd
        obtain ⟨ht, hw⟩ := mem_filter.mp ht
        exact ⟨b, (hmem b).mpr (.inl rfl), t, ht, hw, rfl⟩
    · rintro ⟨c, hc, t, ht, hw, rfl⟩
      rcases (hmem c).mp hc with rfl | hc
      · exact .inr (mem_map.mpr ⟨t, mem_filter.mpr ⟨ht, hw⟩, rfl⟩)
      · exact .inl ⟨c, hc, t, ht, hw, rfl⟩
  · rw [map_append, List.map_map]
    refine nodup_append.mpr ⟨h.once, ?_, ?_⟩
    · exact ((nodup_targets b.exit).filter _).map fun t t' heq => (Prod.mk.inj heq).1
    · -- the block has not left its stack before
      rintro _ hold _ hleft rfl
      obtain ⟨d, hd, rfl⟩ := mem_map.mp hold
      obtain ⟨c, hc, t, -, -, rfl⟩ := (h.mem_iff d).mp hd
      obtain ⟨t', -, heq⟩ := mem_map.mp hleft
      exact hfresh c hc (Prod.mk.inj heq).2.symm

end

/-- What is known where the blocks in `seen` have been entered: variables are noted for those that
took over stacks, and the others wait. -/
structure State.Ledger (p : Plan) (seen : List BlockId) (s : State) : Prop where
  within : ∀ t ∈ seen, t ∈ p.order
  noted : ∀ t, (s.entries.lookup t).isSome = true ↔ t ∈ seen ∧ p.isHandler t = false ∧ t ∉ p.subroutines
  vars : ∀ t vars, s.entries.lookup t = some vars → ∀ v, some v ∈ vars → v.origin = .stack
  ascending : Block.Ascending s.blocks
  exits : p.flow.Terminated → ∀ b ∈ s.blocks, ∃ block, p.flow.block? b.id = some block ∧
    b.exit.terminator = block.terminator.onReturn
  stores : ∀ b ∈ s.blocks, ∃ own tail reached, Stores s.entries b own tail reached
  heights : ∀ b ∈ s.blocks, ∀ t ∈ b.succs, ∀ vars, s.entries.lookup t = some vars → vars.length = b.stack.length
  waiting : Waiting p s.entries s.blocks s.pending

section

variable {ctx : MethodContext} {p : Plan} {s s' : State} {seen : List BlockId}

theorem ledger_initial (p : Plan) : State.initial.Ledger p [] := by
  constructor
  case waiting => constructor <;> simp [State.initial]
  all_goals simp [State.initial, Block.Ascending]

theorem foldl_spill (vars : SpillVars) (incoming : List Delivery) (blocks : List Block) : incoming.foldl
      (fun blocks d => blocks.map fun b => if b.id = d.source then appendSpills vars d.stack b else b) blocks =
    blocks.map fun b => (incoming.filter (·.source == b.id)).foldl (fun c d => appendSpills vars d.stack c) b := by
  induction incoming generalizing blocks with
  | nil => simp
  | cons d rest ih =>
      rw [foldl_cons, ih, List.map_map]
      refine map_congr_left fun b _ => ?_
      by_cases hb : b.id = d.source
      · simp [hb, appendSpills]
      · simp [hb, Ne.symm hb]

theorem State.Ledger.blocks_eq (h : s.Ledger p seen) (hwait : awaits p s.entries id = true) (vars : SpillVars) :
    (s.pending.filter (·.target == id)).foldl
      (fun blocks d => blocks.map fun b => if b.id = d.source then appendSpills vars d.stack b else b) s.blocks =
    s.blocks.map (storeFor id vars) := by
  rw [foldl_spill]
  refine map_congr_left fun b hb => ?_
  rw [h.waiting.filter_eq h.ascending.nodup hwait hb, storeFor]
  split <;> rfl

theorem State.Ledger.merged (h : s.Ledger p seen) (hwait : awaits p s.entries id = true)
    (hsub : id ∉ p.subroutines) {n}
    (hmerge : mergeStacks id ((s.pending.filter (·.target == id)).map (·.stack)) (p.predCount id) s.nextStack =
      .ok (stack, vars, n)) : State.Ledger p (id :: seen) { s with
      nextStack := n
      blocks := s.blocks.map (storeFor id vars)
      pending := s.pending.filter (·.target != id)
      entries := (id, vars) :: s.entries } := by
  obtain ⟨hreads, hlen⟩ := mergeStacks_inv hmerge
  obtain ⟨⟨hin, hhandler⟩, hnone⟩ : (id ∈ p.order ∧ p.isHandler id = false) ∧ s.entries.lookup id = none := by
    simpa [awaits] using hwait
  constructor
  case within => exact forall_mem_cons.mpr ⟨hin, h.within⟩
  case noted =>
    intro t
    rw [lookup_noted]
    by_cases ht : t = id
    · simp [ht, hhandler, hsub]
    · simp [ht, h.noted]
  case vars =>
    intro t vars' hv
    rw [lookup_noted] at hv
    split at hv
    · cases hv
      exact fun v => origin_of_reads hreads
    · exact h.vars t vars' hv
  case ascending => exact h.ascending.of_map_id (by simp [Function.comp_def])
  case exits =>
    intro hends
    simpa using h.exits hends
  case stores =>
    rw [forall_mem_map]
    intro b hb
    obtain ⟨own, tail, reached, hstores⟩ := h.stores b hb
    exact ⟨own, hstores.storeFor hnone vars⟩
  case heights =>
    rw [forall_mem_map]
    intro b hb t ht vars' hv
    rw [succs_storeFor] at ht
    rw [lookup_noted] at hv
    rw [stack_storeFor]
    split at hv
    · rename_i heq
      cases hv
      apply hlen
      refine mem_map.mpr ⟨⟨t, b.id, b.stack⟩, mem_filter.mpr ⟨?_, by simp [heq]⟩, rfl⟩
      exact (h.waiting.mem_iff _).mpr ⟨b, hb, t, ht, heq ▸ hwait, rfl⟩
    · exact h.heights b hb t ht vars' hv
  case waiting => exact h.waiting.enter id vars

theorem State.Ledger.enter (h : s.Ledger p seen) (hnew : id ∉ seen) (hin : id ∈ p.order)
    (henter : enter p s id = .ok (stack, s')) :
    s'.Ledger p (id :: seen) ∧ s'.blocks.map (·.id) = s.blocks.map (·.id) := by
  refine ⟨?_, Block.map_id_of_link (map_link_enter henter)⟩
  rcases enter_inv henter with ⟨rfl, hown⟩ | ⟨hhandler, hsub, vars, n, hmerge, rfl⟩
  · refine { h with within := forall_mem_cons.mpr ⟨hin, h.within⟩, noted := fun t => ?_ }
    rw [h.noted]
    by_cases ht : t = id
    · subst ht
      rcases hown with hown | hown <;> simp [hown]
    · simp [ht]
  · have hnone : s.entries.lookup id = none := by
      rw [← Option.not_isSome_iff_eq_none, h.noted]
      exact fun hid => hnew hid.1
    have hwait : awaits p s.entries id = true := by simp [awaits, hin, hhandler, hnone]
    rw [h.blocks_eq hwait]
    exact h.merged hwait hsub hmerge

theorem State.Ledger.leave (h : s.Ledger p (b.id :: s.blocks.map (·.id))) (hnew : b.id ∉ s.blocks.map (·.id))
    (hown : ∀ st ∈ b.stmts, st.stmt.writesStack = false)
    (hexit : p.flow.Terminated → ∃ block, p.flow.block? b.id = some block ∧ b.exit.terminator = block.terminator.onReturn)
    (hheights : ∀ t ∈ b.succs, t ∈ p.order → p.isHandler t = false →
      ∀ vars, s.entries.lookup t = some vars → vars.length = b.stack.length)
    (duplicates : Duplicates) (nextTemp : UInt16) (asked : List String) :
    (∀ id, id ∈ ((spillBack s.entries b).insert s.blocks).map (·.id) ↔ id ∈ b.id :: s.blocks.map (·.id)) ∧
      State.Ledger p (((spillBack s.entries b).insert s.blocks).map (·.id)) { s with
        duplicates
        nextTemp
        asked
        pending := s.pending ++ (b.succs.filter (awaits p s.entries)).map fun t => ⟨t, b.id, b.stack⟩
        blocks := (spillBack s.entries b).insert s.blocks } := by
  obtain ⟨own, tail, reached, hstores⟩ : ∃ own tail reached, Stores s.entries (spillBack s.entries b) own tail reached :=
    ⟨b.stmts, stores_spillBack s.entries hown (nodup_targets b.exit)⟩
  obtain ⟨more, hback, -⟩ := spillBack_append s.entries b
  rw [hback] at hstores ⊢
  generalize b.stmts ++ more = stmts at hstores ⊢
  have hfresh : ∀ c ∈ s.blocks, c.id ≠ b.id := fun c hc heq => hnew (heq ▸ mem_map_of_mem hc)
  have hmem (c : Block) : c ∈ Block.insert { b with stmts := stmts } s.blocks ↔
      c = { b with stmts := stmts } ∨ c ∈ s.blocks :=
    Block.mem_insert (b := { b with stmts := stmts }) hfresh
  have hids (id : BlockId) : id ∈ (Block.insert { b with stmts := stmts } s.blocks).map (·.id) ↔
      id ∈ b.id :: s.blocks.map (·.id) := by
    simp only [mem_map, hmem, or_and_right, exists_or, exists_eq_left, mem_cons, eq_comm]
  refine ⟨hids, ?_⟩
  constructor
  case within => exact fun t ht => h.within t ((hids t).mp ht)
  case noted =>
    intro t
    rw [h.noted, hids]
  case vars => exact h.vars
  case ascending => exact h.ascending.insert _
  case exits =>
    intro hends c hc
    rcases (hmem c).mp hc with rfl | hc
    · exact hexit hends
    · exact h.exits hends c hc
  case stores =>
    intro c hc
    rcases (hmem c).mp hc with rfl | hc
    · exact ⟨own, tail, reached, hstores⟩
    · exact h.stores c hc
  case heights =>
    intro c hc
    rcases (hmem c).mp hc with rfl | hc
    · intro t ht vars hv
      obtain ⟨hseen, hhandler, -⟩ := (h.noted t).mp (hv ▸ rfl)
      exact hheights t ht (h.within t hseen) hhandler vars hv
    · exact h.heights c hc
  case waiting => exact h.waiting.leave (b := { b with stmts := stmts }) hfresh hmem

theorem State.Ledger.simulateBlock (h : s.Ledger p (s.blocks.map (·.id))) {block}
    (hmem : p.flow.block? block.id = some block) (hin : block.id ∈ p.order) (hnew : block.id ∉ s.blocks.map (·.id))
    (hblock : simulateBlock ctx p s block = .ok s') :
    (∀ id, id ∈ s'.blocks.map (·.id) ↔ id ∈ block.id :: s.blocks.map (·.id)) ∧
      s'.Ledger p (s'.blocks.map (·.id)) := by
  obtain ⟨stack, s1, f, asked, exit, henter, hsteps, hheights, rfl⟩ := simulateBlock_inv hblock
  obtain ⟨h1, hids⟩ := h.enter hnew hin henter
  rw [← hids] at h1 hnew ⊢
  refine State.Ledger.leave h1 hnew (spares_runSteps hsteps nofun) (fun hends => ⟨block, hmem, ?_⟩) hheights ..
  obtain ⟨last, hlast, hterm⟩ := hends block (ControlFlow.block?_some hmem).1
  have hstop : block.stop = last.next := by simp [BasicBlock.stop, hlast]
  rw [hterm, hstop, terminator_runSteps hsteps hlast]

theorem State.Ledger.simulateAll (h : s.Ledger p (s.blocks.map (·.id))) {order} (hnodup : order.Nodup)
    (hnew : ∀ id ∈ order, id ∉ s.blocks.map (·.id)) (hin : ∀ id ∈ order, id ∈ p.order)
    (hall : simulateAll ctx p s order = .ok s') : (∀ id, id ∈ s'.blocks.map (·.id) ↔
      id ∈ s.blocks.map (·.id) ∨ id ∈ order ∧ (p.flow.block? id).isSome = true) ∧
      s'.Ledger p (s'.blocks.map (·.id)) := by
  induction order generalizing s with
  | nil =>
      cases hall
      exact ⟨by simp, h⟩
  | cons id rest ih =>
      rw [nodup_cons] at hnodup
      rw [forall_mem_cons] at hnew hin
      unfold Simulation.simulateAll at hall
      split at hall
      · rename_i hnone
        obtain ⟨hids, hs'⟩ := ih h hnodup.2 hnew.2 hin.2 hall
        refine ⟨fun t => ?_, hs'⟩
        rw [hids]
        by_cases ht : t = id
        · subst ht
          simp [hnone]
        · simp [ht]
      · rename_i block hblock
        obtain ⟨s1, hs1, hall⟩ := bind_eq_ok.mp hall
        obtain rfl := (ControlFlow.block?_some hblock).2
        obtain ⟨hids1, h1⟩ := h.simulateBlock hblock hin.1 hnew.1 hs1
        have hrest : ∀ t ∈ rest, t ∉ s1.blocks.map (·.id) := by
          intro t ht
          rw [hids1, mem_cons, not_or]
          exact ⟨fun heq => hnodup.1 (heq ▸ ht), hnew.2 t ht⟩
        obtain ⟨hids, hs'⟩ := ih h1 hnodup.2 hrest hin.2 hall
        refine ⟨fun t => ?_, hs'⟩
        rw [hids, hids1]
        by_cases ht : t = block.id
        · simp [ht, hblock]
        · simp [ht]

end

end Simulation

/-! ## Settled blocks -/

namespace Duplicates

variable {ds : Duplicates} {total : Nat → Nat} {p p' : Progress}

theorem Settles.eq_of_no_copies {stmts out} (h : Settles ds total p stmts p' out)
    (hno : ∀ s ∈ stmts, s.stmt.copyId? = none) : out = stmts := by
  induction h with
  | nil => rfl
  | keep _ _ ih => rw [ih fun s hs => hno s (mem_cons_of_mem _ hs)]
  | absent hs | drop hs | inline hs | save hs | join hs => simp [hs, Stmt.copyId?] at hno

theorem Settles.append_stores {own tail out} (h : Settles ds total p (own ++ tail) p' out)
    (hown : ∀ s ∈ own, s.stmt.writesStack = false) (htail : ∀ s ∈ tail, s.stmt.writesStack = true) :
    ∃ out', out = out' ++ tail ∧ ∀ s ∈ out', s.stmt.writesStack = false := by
  have hsplit {own : List Located} {s : Located} {rest : List Located} (hstmts : own ++ tail = s :: rest)
      (hs : s.stmt.writesStack = false) : ∃ own', own = s :: own' ∧ rest = own' ++ tail := by
    rcases append_eq_cons_iff.mp hstmts with ⟨-, rfl⟩ | hown
    · simp [hs] at htail
    · exact hown
  generalize hstmts : own ++ tail = stmts at h
  induction h generalizing own with
  | nil =>
      obtain ⟨rfl, rfl⟩ := append_eq_nil_iff.mp hstmts
      exact ⟨[], rfl, nofun⟩
  | absent hs _ _ ih | inline hs _ _ ih =>
      obtain ⟨own, rfl, rfl⟩ := hsplit hstmts (by rw [hs]; rfl)
      exact ih (forall_mem_cons.mp hown).2 rfl
  | @drop _ _ _ _ value _ _ hs _ _ _ ih =>
      obtain ⟨own, rfl, rfl⟩ := hsplit hstmts (by rw [hs]; rfl)
      obtain ⟨out', rfl, hout⟩ := ih (forall_mem_cons.mp hown).2 rfl
      refine ⟨_, (append_assoc ..).symm, forall_mem_append.mpr ⟨?_, hout⟩⟩
      cases value.hasSideEffects <;> simp [Located.withStmt, Stmt.writesStack]
  | save hs _ _ _ ih =>
      obtain ⟨own, rfl, rfl⟩ := hsplit hstmts (by rw [hs]; rfl)
      obtain ⟨out', rfl, hout⟩ := ih (forall_mem_cons.mp hown).2 rfl
      exact ⟨_ :: out', rfl, forall_mem_cons.mpr ⟨rfl, hout⟩⟩
  | @join _ _ next _ _ _ v _ _ hs _ hnext _ ih =>
      obtain ⟨hstore, hslot⟩ := storedTo?_eq_some hnext
      have hwrites (e : Expr) : (Stmt.store v e).writesStack = false := by simp [Stmt.writesStack, hslot]
      obtain ⟨own, rfl, hrest⟩ := hsplit hstmts (by rw [hs]; rfl)
      obtain ⟨own, rfl, rfl⟩ := hsplit hrest.symm (by rw [hstore]; exact hwrites _)
      obtain ⟨out', rfl, hout⟩ := ih (fun s hs => hown s (by simp [hs])) rfl
      exact ⟨_ :: out', rfl, forall_mem_cons.mpr ⟨hwrites _, hout⟩⟩
  | @keep _ s _ _ _ hs h ih =>
      cases hw : s.stmt.writesStack with
      | false =>
          obtain ⟨own, rfl, rfl⟩ := hsplit hstmts hw
          obtain ⟨out', rfl, hout⟩ := ih (forall_mem_cons.mp hown).2 rfl
          exact ⟨s :: out', rfl, forall_mem_cons.mpr ⟨hw, hout⟩⟩
      | true =>
          obtain ⟨rfl, rfl⟩ | ⟨own, rfl, -⟩ := append_eq_cons_iff.mp hstmts
          · refine ⟨[], ?_, nofun⟩
            rw [h.eq_of_no_copies fun s hs => ?_]
            · rfl
            · refine Stmt.copyId?_eq_none fun id heq => ?_
              simpa [heq, Stmt.writesStack] using htail s (mem_cons_of_mem _ hs)
          · simp [hw] at hown

theorem exists_settles_of_mem {blocks} (hb : b ∈ (ds.settleBlocks total p blocks).2) :
    ∃ c ∈ blocks, ∃ p1 p2 out, Settles ds total p1 c.stmts p2 out ∧ b = { c with stmts := out } := by
  induction blocks generalizing p with
  | nil => cases hb
  | cons c rest ih =>
      rcases mem_cons.mp hb with rfl | hb
      · exact ⟨c, mem_cons_self, _, _, _, settles_settleStmts ds total (ds.usesAt c) p c.stmts, rfl⟩
      · obtain ⟨c, hc, hsettles⟩ := ih hb
        exact ⟨c, mem_cons_of_mem _ hc, hsettles⟩

end Duplicates

/-- A block whose duplicates are settled: `g` puts in what stands for them. -/
structure Block.SettledBy (g : Expr → Expr) (c b : Block) : Prop where
  id : b.id = c.id
  terminator : b.exit.terminator = c.exit.terminator
  operand? : b.exit.operand? = c.exit.operand?.map g
  stack : b.stack = c.stack.map g
  stmts : ∀ own tail (stores : List (LocalVar × Expr)), c.stmts = own ++ tail →
    (∀ s ∈ own, s.stmt.writesStack = false) → tail.map (·.stmt) = stores.map Simulation.storeOf →
    (∀ s ∈ stores, s.1.origin = .stack) → ∃ own' : List Stmt, (∀ s ∈ own', s.writesStack = false) ∧
      b.stmts.map (·.stmt) = own' ++ stores.map fun s => Simulation.storeOf (s.1, g s.2)

theorem Block.SettledBy.succs {g} {c : Block} (h : c.SettledBy g b) : b.succs = c.succs := by
  rw [Block.succs, ← Exit.targets_terminator, h.terminator, Exit.targets_terminator, Block.succs]

theorem Simulation.State.Ledger.height_of_settledBy {p seen} {s : State}
    (h : s.Ledger p seen) {g c} (hc : c ∈ s.blocks) (hcb : c.SettledBy g b) {t : BlockId}
    (ht : t ∈ b.succs) (hvars : s.entries.lookup t = some vars) : vars.length = b.stack.length := by
  rw [hcb.stack, length_map]
  exact h.heights c hc t (hcb.succs ▸ ht) vars hvars

theorem Stmt.writesStack_mapNodes (f : Expr → Expr) (s : Stmt) : (s.mapNodes f).writesStack = s.writesStack := by
  cases s <;> rfl

theorem Duplicates.settledBy_of_mem_resolve {ds : Duplicates} {blocks nextTemp}
    (hb : b ∈ (ds.resolve blocks nextTemp).1) : ∃ c ∈ blocks, ∃ g, c.SettledBy g b := by
  unfold resolve at hb
  split at hb
  · refine ⟨b, hb, id, rfl, rfl, by simp, by simp, fun own tail stores hstmts hown htail _ => ?_⟩
    exact ⟨own.map (·.stmt), by simpa using hown, by simp [hstmts, htail]⟩
  · obtain ⟨b', hb', rfl⟩ := mem_map.mp hb
    obtain ⟨c, hc, p1, p2, out, hsettles, rfl⟩ := exists_settles_of_mem hb'
    generalize replaceLoads _ _ = f
    refine ⟨c, hc, (·.mapNodes f), rfl, Exit.terminator_mapNodes f c.exit, Exit.operand?_mapNodes f c.exit, rfl, ?_⟩
    intro own tail stores hstmts hown htail horigin
    have hstack : ∀ s ∈ tail, s.stmt.writesStack = true := by
      intro s hs
      obtain ⟨store, hstore, heq⟩ := mem_map.mp (htail ▸ mem_map_of_mem hs)
      simp [← heq, Simulation.storeOf, Stmt.writesStack, horigin store hstore]
    obtain ⟨out', rfl, hout⟩ := (hstmts ▸ hsettles).append_stores hown hstack
    refine ⟨(out'.map (·.stmt)).map (·.mapNodes f), by simpa [Stmt.writesStack_mapNodes] using hout, ?_⟩
    show ((out' ++ tail).map fun s => s.withStmt (s.stmt.mapNodes f)).map (·.stmt) = _
    have hmap : ((out' ++ tail).map fun s => s.withStmt (s.stmt.mapNodes f)).map (·.stmt) =
        ((out' ++ tail).map (·.stmt)).map (·.mapNodes f) := by
      rw [List.map_map, List.map_map]
      rfl
    have hstores : (stores.map Simulation.storeOf).map (·.mapNodes f) =
        stores.map fun s => Simulation.storeOf (s.1, s.2.mapNodes f) := by
      rw [List.map_map]
      rfl
    rw [hmap, map_append, map_append, htail, hstores]

end JvmLift
