import JvmLift.Proofs.Structure.Method
import JvmLift.Proofs.Walk.Gathering
import JvmLift.Proofs.Walk.Precedence
import Mathlib.Algebra.Order.Group.Multiset
import Mathlib.Data.List.Flatten

/-!
# A walk keeps every statement once

Without protected regions, a walk writes the statements of exactly the blocks it visits: every block that the entry
reaches, and none twice.
-/
namespace JvmLift

open List

open Relation (ReflTransGen)

variable {block : Block}

namespace Walk

/-! ## What is written is what is visited -/

def stmtsAt (l : Layout) (b : BlockId) : List Located := ((l.block? b).map (·.stmts)).getD []

def written (ts : List Tree) : Multiset Located := Tree.simples ts

def stmtsOfAll (l : Layout) (bs : List BlockId) : Multiset Located := bs.flatMap (stmtsAt l)

section

variable {l : Layout}

/-- What is written between two states are the statements of the blocks visited. -/
def WritesVisited (l : Layout) (s s' : State) (new : List Located) : Prop :=
  ∃ bs, s'.visited = bs ++ s.visited ∧ (new : Multiset Located) = stmtsOfAll l bs

theorem WritesVisited.visit {b new} (s : State) (h : new = stmtsAt l b) : WritesVisited l s (s.visit b) new :=
  ⟨[b], rfl, by simp [h, stmtsOfAll]⟩

theorem WritesVisited.trans {s s1 s' new new'} (h : WritesVisited l s s1 new) (h' : WritesVisited l s1 s' new') :
    WritesVisited l s s' (new ++ new') := by
  obtain ⟨bs, hv, hnew⟩ := h
  obtain ⟨bs', hv', hnew'⟩ := h'
  refine ⟨bs' ++ bs, by rw [hv', hv, append_assoc], ?_⟩
  rw [← Multiset.coe_add, hnew, hnew', add_comm]
  simp [stmtsOfAll]

theorem simples_labelOf (b : BlockId) : Tree.picked Tree.simple? (labelOf l b) = [] := by
  unfold labelOf
  split <;> rfl

theorem gathers_simples (hp : l.protection.plans = []) : Gathers l Tree.simple? (WritesVisited l) where
  linear := Tree.linear_simple?
  trans h h' _ _ := h.trans h'
  still hv _ := ⟨[], hv, rfl⟩
  goto _ _ _ := ⟨[], rfl, rfl⟩
  block s b block _ hb := .visit s (by
    simp [blockTrees, Tree.picked_append, simples_labelOf, Tree.simples_stmtsOf, stmtsAt, hb])
  wrap _ _ _ _ h := by
    unfold State.wrap
    split <;> exact h
  loops := by
    refine .inr ⟨fun _ _ => rfl, fun _ _ => rfl, fun s b info _ _ _ _ hl hform => .visit s ?_,
      fun s _ _ _ latch _ _ _ _ => .visit s ?_⟩
    · obtain ⟨block, hd, hstmts, -⟩ := Layout.loopForm_guarded hform
      obtain ⟨-, hheader, -⟩ := pendingLoop_some hl.pending
      simp [simples_labelOf, stmtsAt, hheader ▸ hd.block?, hstmts]
    · unfold latchTrees stmtsAt
      cases l.block? latch with
      | none => rfl
      | some block => exact Tree.simples_stmtsOf block
  tries := .inl hp

end

end Walk

/-! ## Structured methods -/

namespace Block

/-- Control can get from one block to another over exits. -/
def Reaches (blocks : List Block) : BlockId → BlockId → Prop := ReflTransGen (Edge blocks)

end Block

namespace Walk

variable {l : Layout}

theorem stmtsAt_of_mem (hf : l.Fits) (h : block ∈ l.blocks) : stmtsAt l block.id = block.stmts := by
  simp [stmtsAt, Layout.block?, (Block.find?_eq_some hf.names).mpr ⟨h, rfl⟩]

variable {bs : List Block}

theorem flatMap_stmts (hf : l.Fits) (h : bs.Sublist l.blocks) :
    bs.flatMap (·.stmts) = (bs.map (·.id)).flatMap (stmtsAt l) := by
  rw [flatMap_map]
  exact flatMap_congr fun b hb => (stmtsAt_of_mem hf (h.subset hb)).symm

theorem stmtsOfAll_eq (hf : l.Fits) {names} (hnames : names.Nodup)
    (hall : ∀ b ∈ l.blocks, b.id ∈ names) : stmtsOfAll l names = l.blocks.flatMap (·.stmts) := by
  have hfilter : names.flatMap (stmtsAt l) = (names.filter l.isBlock).flatMap (stmtsAt l) := by
    clear hnames hall
    induction names with
    | nil => rfl
    | cons b names ih =>
        by_cases hb : l.isBlock b = true
        · simp [filter_cons_of_pos hb, ih]
        · have hnone : l.block? b = none := by simpa [Layout.isBlock] using hb
          simp [filter_cons_of_neg hb, ih, stmtsAt, hnone]
  have hperm : (names.filter l.isBlock).Perm (l.blocks.map (·.id)) := by
    refine (perm_ext_iff_of_nodup (hnames.filter _) hf.names).mpr fun b => ?_
    rw [mem_filter, Layout.isBlock_iff, mem_map]
    exact ⟨And.right, fun ⟨c, hc, hcb⟩ => ⟨hcb ▸ hall c hc, c, hc, hcb⟩⟩
  unfold stmtsOfAll
  rw [hfilter, flatMap_stmts hf (List.Sublist.refl _)]
  exact Multiset.coe_eq_coe.mpr (hperm.flatMap_right _)

theorem flatMap_stmts_subperm (hf : l.Fits) (h : bs.Sublist l.blocks) {names : List BlockId}
    (hsub : ∀ b ∈ bs, b.id ∈ names) : (bs.flatMap (·.stmts)).Subperm (names.flatMap (stmtsAt l)) := by
  have hids : (bs.map (·.id)).Subperm names := by
    refine subperm_of_subset (hf.names.sublist (h.map _)) fun x hx => ?_
    obtain ⟨b, hb, rfl⟩ := mem_map.mp hx
    exact hsub b hb
  obtain ⟨ids, hperm, hids⟩ := hids
  rw [flatMap_stmts hf h]
  exact ⟨ids.flatMap (stmtsAt l), hperm.flatMap_right _, hids.flatMap _⟩

theorem Bare.visited_run (hb : Bare l) {x} (hx : ReflTransGen (fun x y => y ∈ l.succs x) l.graph.entry x) :
    x ∈ (run l l.graph.entry).2.visited := by
  obtain ⟨_, h⟩ := run_region l l.graph.entry hb.begins
  obtain ⟨W, hc, hW⟩ := h.covers hb.fits
  -- nothing encloses the walk, so nothing is left for later
  have hlater : ∀ w, Deferred [] none (run l l.graph.entry).2 w →
      w ∈ (run l l.graph.entry).2.visited := by
    rintro w (h | h | h)
    · cases h
    · simp [targetsOf] at h
    · exact h.2
  induction hx with
  | refl =>
      rcases hW.deferred hb.begins (hb.skipPast? _) with h | h
      · exact hc.visited _ h (hb.not_stuck _)
      · exact hlater _ h
  | tail _ hvw ih =>
      have hWv := (hc.all hb.no_plans _ ih).resolve_left (by simp [State.initial])
      rcases hc.succs _ hWv (hb.not_stuck _) _ hvw (hb.skipPast? _) with h | h
      · exact hc.visited _ h (hb.not_stuck _)
      · exact hlater _ h

theorem Bare.written_run (hb : Bare l) :
    written (run l l.graph.entry).1 = stmtsOfAll l (run l l.graph.entry).2.visited := by
  obtain ⟨_, h⟩ := run_region l l.graph.entry hb.begins
  obtain ⟨bs, hv, hw⟩ := (h.gathers (gathers_simples hb.no_plans)).body
  have hvisited : bs = (run l l.graph.entry).2.visited := by simpa [State.initial] using hv.symm
  exact hvisited ▸ hw

theorem Connected.nodup_run (hc : Connected l) : (run l l.graph.entry).2.visited.Nodup := by
  obtain ⟨_, h⟩ := run_region l l.graph.entry hc.begins
  have hdown : Downward l .initial := fun v hv => by simp [State.initial] at hv
  have ho := h.orderly hc hdown (fun t ht => by simp [targetsOf] at ht) (fun _ d hd hne => ?_) (by simp)
  · exact ho.nodup nodup_nil
  · exact absurd ⟨Ne.symm hne, .refl⟩ hd

theorem Bare.subperm_run (hb : Bare l) (hsub : bs.Sublist l.blocks)
    (hbs : ∀ b ∈ bs, ReflTransGen (fun x y => y ∈ l.succs x) l.graph.entry b.id) :
    (bs.flatMap (·.stmts)).Subperm (Tree.simples (run l l.graph.entry).1) := by
  have hnames := flatMap_stmts_subperm hb.fits hsub fun b hbb => hb.visited_run (hbs b hbb)
  exact hnames.trans (Multiset.coe_eq_coe.mp hb.written_run.symm).subperm

theorem Connected.perm_run (hc : Connected l) :
    (Tree.simples (run l l.graph.entry).1).Perm (l.blocks.flatMap (·.stmts)) := by
  have hall : ∀ b ∈ l.blocks, b.id ∈ (run l l.graph.entry).2.visited := fun b hb =>
    hc.visited_run (hc.reached.2 b.id (Layout.isBlock_iff.mpr ⟨b, hb, rfl⟩))
  exact Multiset.coe_eq_coe.mp (hc.written_run.trans (stmtsOfAll_eq hc.fits hc.nodup_run hall))

end Walk

section

variable {cf : ControlFlow} {blocks : List Block} {p : Protection}

section

variable (hm : Block.IsMap blocks cf.entry)

include hm

theorem Block.IsMap.bare (hp : p.plans = []) (hs : p.skipped = [])
    (labels : List BlockId) : Walk.Bare { Structure.layout cf blocks p false with labels } where
  fits := Structure.fits_layout hm.nodup labels
  begins := Layout.isBlock_iff.mpr hm.entry
  closed _ block hb t ht :=
    Layout.isBlock_iff.mpr (hm.closed block ((Block.find?_eq_some hm.nodup).mp hb).1 t ht)
  no_plans := hp
  no_skips := hs

theorem Block.IsMap.reaches (labels : List BlockId) {x y} (h : Block.Reaches blocks x y) : ReflTransGen
      (fun x y => y ∈ Layout.succs { Structure.layout cf blocks p false with labels } x) x y := by
  refine ReflTransGen.mono (fun x y hxy => ?_) _ _ h
  obtain ⟨block, hblock, rfl, hy⟩ := hxy
  exact (Structure.fits_layout hm.nodup labels).mem_succs hblock hy
    (Layout.isBlock_iff.mpr (hm.closed block hblock y hy))

theorem Block.IsMap.connected (hp : p.plans = [])
    (hs : p.skipped = []) (labels : List BlockId) (hr : ∀ b ∈ blocks, Block.Reaches blocks cf.entry b.id) :
    Walk.Connected { Structure.layout cf blocks p false with labels } := by
  refine ⟨hm.bare hp hs labels, (hm.bare hp hs labels).begins, fun b hb => ?_⟩
  obtain ⟨c, hc, rfl⟩ := Layout.isBlock_iff.mp hb
  exact hm.reaches labels (hr c hc)

end

/-- Structuring loses no statement that the entry reaches. Where the entry reaches every block, it
keeps each statement once and adds none. -/
theorem simples_structureMethod (cf : ControlFlow) (blocks : List Block) (p : Protection)
    (hm : Block.IsMap blocks cf.entry) (hp : p.plans = []) (hs : p.skipped = []) :
    (∀ bs : List Block, bs.Sublist blocks → (∀ b ∈ bs, Block.Reaches blocks cf.entry b.id) →
      (bs.flatMap (·.stmts)).Subperm (Tree.simples (structureMethod cf blocks p false).stmts)) ∧
    ((∀ b ∈ blocks, Block.Reaches blocks cf.entry b.id) →
      (Tree.simples (structureMethod cf blocks p false).stmts).Perm (blocks.flatMap (·.stmts))) := by
  rw [Structure.structureMethod_eq]
  refine ⟨fun bs hsub hbs => ?_, fun hr => (hm.connected hp hs _ hr).perm_run⟩
  exact (hm.bare hp hs _).subperm_run hsub fun b hb => hm.reaches _ (hbs b hb)

end

def twoWaysIn : List Block :=
  [⟨0, [], .cond (.boolLit true) 1 2, []⟩,
    ⟨1, [⟨.expr (.intLit 1), 1, 2, none⟩], .cond (.boolLit true) 2 3, []⟩,
    ⟨2, [⟨.expr (.intLit 2), 2, 3, none⟩], .goto 1, []⟩, ⟨3, [⟨.leave none, 3, 4, none⟩], .leave, []⟩]

theorem simples_twoWaysIn : Block.IsMap twoWaysIn 0 ∧ (∀ b ∈ twoWaysIn, Block.Reaches twoWaysIn 0 b.id) ∧
      (Tree.simples (structureMethod ⟨0, [], []⟩ twoWaysIn ⟨[], [], []⟩ false).stmts).Perm
        (twoWaysIn.flatMap (·.stmts)) := by
  have hm : Block.IsMap twoWaysIn 0 := ⟨by decide, by decide, by decide⟩
  have hone : Block.Reaches twoWaysIn 0 1 := .single ⟨_, .head _, rfl, by decide⟩
  have hthree : Block.Reaches twoWaysIn 0 3 := hone.tail ⟨_, .tail _ (.head _), rfl, by decide⟩
  have hr : ∀ b ∈ twoWaysIn, Block.Reaches twoWaysIn 0 b.id := by
    simp only [twoWaysIn, List.forall_mem_cons]
    exact ⟨.refl, hone, .single ⟨_, .head _, rfl, by decide⟩, hthree, by simp⟩
  exact ⟨hm, hr, (simples_structureMethod ⟨0, [], []⟩ twoWaysIn ⟨[], [], []⟩ hm rfl rfl).2 hr⟩

/-- Nothing leads to block 2, which leads into the loop and out of it. -/
def detour : List Block :=
  [⟨0, [⟨.expr (.intLit 0), 0, 1, none⟩], .fall 1, []⟩,
    ⟨1, [⟨.expr (.intLit 1), 1, 2, none⟩], .goto 0, []⟩,
    ⟨2, [], .cond (.boolLit true) 1 3, []⟩, ⟨3, [⟨.leave none, 3, 4, none⟩], .leave, []⟩]

/-- A block that cannot be reached counts to a loop that it leads into, and what it leads to is
written after the loop. -/
theorem simples_detour : Block.IsMap detour 0 ∧
      (∀ b ∈ detour, Block.Reaches detour 0 b.id → ∀ s ∈ b.stmts, s.start ≠ 3) ∧
      ∃ s ∈ Tree.simples (structureMethod ⟨0, [], []⟩ detour ⟨[], [], []⟩ false).stmts, s.start = 3 := by
  have hclosed : ∀ c ∈ detour, c.id < 2 → ∀ t ∈ c.succs, t < 2 := by decide
  have hlow : ∀ x, Block.Reaches detour 0 x → x < 2 := by
    intro x hx
    induction hx with
    | refl => decide
    | tail _ hstep ih =>
        obtain ⟨c, hc, rfl, ht⟩ := hstep
        exact hclosed c hc ih _ ht
  have hstmts : ∀ b ∈ detour, b.id < 2 → ∀ s ∈ b.stmts, s.start ≠ 3 := by decide
  refine ⟨⟨by decide, by decide, by decide⟩, fun b hb hr => hstmts b hb (hlow b.id hr), ?_⟩
  decide +kernel

end JvmLift
