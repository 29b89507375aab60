import JvmLift.Proofs.Flow.NaturalLoops
import JvmLift.Proofs.Walk.Derivation
import JvmLift.Structure.Basic

/-!
# Layouts

What the tables of a layout say about its blocks: bounded reach as paths, where branches meet, and
the forms of loops.
-/
namespace JvmLift

open List

open Relation (ReflTransGen)

variable {b : BlockId}

theorem mem_sortedSet {ids : List BlockId} : b ∈ sortedSet ids ↔ b ∈ ids := by
  rw [sortedSet, Std.TreeSet.mem_toList, Std.TreeSet.mem_ofList, contains_iff_mem]

theorem pairwise_sortedSet (ids : List BlockId) : (sortedSet ids).Pairwise (· < ·) :=
  Std.TreeSet.ordered_toList.imp Nat.compare_eq_lt.mp

theorem nodup_sortedSet (ids : List BlockId) : (sortedSet ids).Nodup :=
  (pairwise_sortedSet ids).imp Nat.ne_of_lt

variable {blocks : List Block} {block : Block}

theorem Block.find?_eq_some (hn : (blocks.map (·.id)).Nodup) :
    Block.find? blocks b = some block ↔ block ∈ blocks ∧ block.id = b := by
  unfold Block.find?
  induction blocks with
  | nil => simp
  | cons c rest ih =>
      simp only [map_cons, nodup_cons, mem_map, not_exists, not_and] at hn
      by_cases hc : c.id = b
      · have hrest : ∀ d ∈ rest, d.id ≠ b := fun d hd => hc ▸ hn.1 d hd
        simp only [find?_cons, hc, beq_self_eq_true, Option.some.injEq, mem_cons]
        constructor
        · rintro rfl
          exact ⟨.inl rfl, hc⟩
        · rintro ⟨rfl | hm, hd⟩
          · rfl
          · exact absurd hd (hrest block hm)
      · simp only [find?_cons, beq_eq_false_iff_ne.mpr hc, mem_cons, ih hn.2]
        constructor
        · exact fun h => ⟨.inr h.1, h.2⟩
        · rintro ⟨rfl | hm, hd⟩
          · exact absurd hd hc
          · exact ⟨hm, hd⟩

theorem Block.eq_of_id (hn : (blocks.map (·.id)).Nodup) {b c}
    (hb : b ∈ blocks) (hc : c ∈ blocks) (h : b.id = c.id) : b = c :=
  Option.some.inj (((Block.find?_eq_some hn).mpr ⟨hb, h⟩).symm.trans
    ((Block.find?_eq_some hn).mpr ⟨hc, rfl⟩))

theorem Exit.mem_targets_cond {e taken fall} : b ∈ (Exit.cond e taken fall).targets ↔ b = taken ∨ b = fall := by
  simp only [Exit.targets]
  split <;> simp_all

theorem Block.isSome_find? : (Block.find? blocks b).isSome = blocks.any (·.id == b) := by
  unfold Block.find?
  rw [Bool.eq_iff_iff, find?_isSome, any_eq_true]

theorem Layout.isBlock_iff {l : Layout} : l.isBlock b = true ↔ ∃ c ∈ l.blocks, c.id = b := by
  unfold Layout.isBlock Layout.block?
  rw [Block.isSome_find?]
  simp

theorem Block.getElem?_ofList (hn : (blocks.map (·.id)).Nodup) (f : Block → FlowNode) (hm : block ∈ blocks) :
    (Std.TreeMap.ofList (blocks.map fun b => (b.id, f b)))[block.id]? = some (f block) := by
  refine Std.TreeMap.getElem?_ofList_of_mem (by simp) ?_ (mem_map_of_mem hm)
  rw [pairwise_map]
  exact (pairwise_map.mp hn).imp fun h => by simpa using h

namespace Layout

/-- The blocks of a layout have names of their own, and its tables belong to them. -/
structure Fits (l : Layout) : Prop where
  names : (l.blocks.map (·.id)).Nodup
  order : l.order = l.graph.reversePostorder
  loops : l.loops = l.graph.naturalLoops
  node : ∀ b, l.graph.isNode b = l.isBlock b
  succs : ∀ b block, l.block? b = some block → l.succs b = block.succs.filter l.isBlock

theorem fits_ofGraph (cf : ControlFlow) (hn : (blocks.map (·.id)).Nodup) (p : Protection) (labels : List BlockId) :
    (ofGraph blocks p (Structure.graphOf cf blocks) labels).Fits := by
  refine ⟨hn, rfl, rfl, fun b => ?_, fun b block hb => ?_⟩
  · unfold isBlock block?
    rw [Block.isSome_find?, Bool.eq_iff_iff]
    simp [FlowGraph.isNode, ofGraph, Structure.graphOf, FlowGraph.ofNodes]
  · obtain ⟨hm, rfl⟩ := (Block.find?_eq_some hn).mp hb
    unfold succs FlowGraph.succs
    simp only [ofGraph, Structure.graphOf, FlowGraph.ofNodes, Block.getElem?_ofList hn _ hm]
    unfold isBlock block?
    simp only [Block.isSome_find?]

section

variable {l : Layout} {b x y : BlockId}

theorem Fits.isBlock_of_mem_succs (hf : l.Fits) (h : y ∈ l.succs x) : l.isBlock x = true ∧ l.isBlock y = true := by
  have hx : l.isBlock x = true := hf.node x ▸ FlowGraph.isNode_of_mem_succs h
  obtain ⟨block, hb⟩ := Option.isSome_iff_exists.mp hx
  rw [hf.succs x block hb] at h
  exact ⟨hx, (mem_filter.mp h).2⟩

theorem Fits.mem_targets (hf : l.Fits) (hb : l.block? x = some block) (h : y ∈ l.succs x) : y ∈ block.exit.targets := by
  rw [hf.succs x block hb] at h
  exact (mem_filter.mp h).1

theorem Fits.mem_succs (hf : l.Fits) (hb : block ∈ l.blocks) (hs : y ∈ block.succs)
    (hy : l.isBlock y = true) : y ∈ l.succs block.id := by
  rw [hf.succs block.id block ((Block.find?_eq_some hf.names).mpr ⟨hb, rfl⟩)]
  exact mem_filter.mpr ⟨hs, hy⟩

variable {bounds : List BlockId} {start : BlockId}

theorem mem_reach_of_isBlock (hl : ∀ x, ∀ y ∈ l.succs x, l.isBlock y = true) (hs : l.isBlock start = true) :
    b ∈ l.reach bounds start ↔ ReflTransGen (fun x y => x ∉ bounds ∧ y ∈ l.succs x) start b := by
  have hids : ∀ x, x ∈ l.blocks.map (·.id) ↔ l.isBlock x = true := fun x => by
    rw [isBlock_iff, mem_map]
  have hnext : ∀ x ∈ l.blocks.map (·.id),
      ∀ y ∈ (if bounds.contains x then [] else l.succs x), y ∈ l.blocks.map (·.id) := by
    intro x _ y hy
    split at hy
    · cases hy
    · exact (hids y).mpr (hl x y hy)
  unfold reach
  rw [mem_closure_iff hnext (by simpa [hids] using hs) (by simp)]
  have hrel : (fun x y => y ∈ if bounds.contains x then [] else l.succs x) =
      fun x y => x ∉ bounds ∧ y ∈ l.succs x := by
    funext x y
    by_cases hx : x ∈ bounds <;> simp [hx]
  simp only [hrel, mem_singleton, exists_eq_left]

theorem Fits.mem_reach (hf : l.Fits) (hs : l.isBlock start = true) : b ∈ l.reach bounds start ↔
      ReflTransGen (fun x y => x ∉ bounds ∧ y ∈ l.succs x) start b :=
  mem_reach_of_isBlock (fun _ _ hy => (hf.isBlock_of_mem_succs hy).2) hs

def AllReached (l : Layout) : Prop :=
  l.isBlock l.graph.entry = true ∧
    ∀ b, l.isBlock b = true → ReflTransGen (fun x y => y ∈ l.succs x) l.graph.entry b

theorem Fits.mem_allSuccs (hf : l.Fits) (h : y ∈ l.succs x) : y ∈ l.graph.allSuccs x :=
  FlowGraph.mem_allSuccs_of_mem_succs h (hf.node y ▸ (hf.isBlock_of_mem_succs h).2)

theorem Fits.entry_isNode (hf : l.Fits) (ha : l.AllReached) : l.graph.isNode l.graph.entry = true :=
  hf.node _ ▸ ha.1

theorem Fits.mem_order (hf : l.Fits) (ha : l.AllReached) (hb : l.isBlock b = true) : b ∈ l.order := by
  rw [hf.order]
  refine FlowGraph.mem_reversePostorder (hf.entry_isNode ha) ?_
  exact ReflTransGen.mono (fun _ _ h => hf.mem_allSuccs h) _ _ (ha.2 b hb)

/-! ### Where branches meet -/

theorem Fits.isBlock_of_mem_reach (hf : l.Fits)
    (hs : l.isBlock start = true) (h : b ∈ l.reach bounds start) : l.isBlock b = true := by
  rcases ReflTransGen.cases_tail ((hf.mem_reach hs).mp h) with rfl | ⟨x, -, -, hx⟩
  · exact hs
  · exact (hf.isBlock_of_mem_succs hx).2

variable {sources : List BlockId}

theorem Fits.firstCommon_cuts (hf : l.Fits) (ha : l.AllReached)
    {m d} (hs : sources ≠ []) (hsub : ∀ t ∈ sources, t ∈ l.succs b)
    (hm : l.firstCommon (sources.map (l.reach bounds)) = some m) (hd : l.graph.Cuts d m)
    (hne : d ≠ m) : l.graph.Cuts d b := by
  obtain ⟨t, ts, rfl⟩ := exists_cons_of_ne_nil hs
  have hblock : ∀ u ∈ t :: ts, l.isBlock u = true := fun u hu =>
    (hf.isBlock_of_mem_succs (hsub u hu)).2
  unfold firstCommon at hm
  rw [map_cons] at hm
  dsimp only at hm
  generalize hc : (l.reach bounds t).toList.filter _ = common at hm
  have hcommon : ∀ x, x ∈ common ↔ ∀ u ∈ t :: ts, x ∈ l.reach bounds u := by
    rw [← hc]
    simp
  have hmem : m ∈ common := by
    cases hfind : l.order.find? common.contains with
    | some m' =>
        rw [hfind] at hm
        cases hm
        simpa using find?_some hfind
    | none =>
        rw [hfind] at hm
        exact mem_of_mem_head? hm
  have horder : m ∈ l.order :=
    hf.mem_order ha (hf.isBlock_of_mem_reach (hblock t (mem_cons_self ..))
      ((hcommon m).mp hmem t (mem_cons_self ..)))
  obtain ⟨m', hfind⟩ := Option.isSome_iff_exists.mp
    (find?_isSome.mpr ⟨m, horder, contains_iff_mem.mpr hmem⟩)
  rw [hfind] at hm
  cases hm
  obtain ⟨-, as, bs, hsplit, has⟩ := find?_eq_some_iff_append.mp hfind
  rw [hf.order] at hsplit
  rcases FlowGraph.before_of_cuts hsplit hd with rfl | hdas
  · exact absurd rfl hne
  · -- a block that every way to `m` passes is common itself, and comes earlier
    intro hev
    refine absurd (has d hdas) ?_
    suffices d ∈ common by simpa using this
    refine (hcommon d).mpr fun u hu => (hf.mem_reach (hblock u hu)).mpr ?_
    by_cases hud : u = d
    · exact hud ▸ .refl
    refine (touches_or_avoids d ((hf.mem_reach (hblock u hu)).mp ((hcommon _).mp hmem u hu))).resolve_right
      fun havoid => hd ?_
    refine (hev.step (hf.mem_allSuccs (hsub u hu)) hud).along ?_
    exact ReflTransGen.mono (fun _ _ h => ⟨hf.mem_allSuccs h.1.2, h.2⟩) _ _ havoid

theorem Fits.merge_cuts (hf : l.Fits) (ha : l.AllReached) {m d} (hs : sources ≠ [])
    (hsub : ∀ t ∈ sources, t ∈ l.succs b) (hm : l.merge bounds sources = some m) (hd : l.graph.Cuts d m)
    (hne : d ≠ m) : l.graph.Cuts d b := by
  unfold merge at hm
  split at hm
  · rename_i m' hm'
    cases hm
    exact hf.firstCommon_cuts ha hs hsub hm' hd hne
  · dsimp only at hm
    split at hm
    · refine hf.firstCommon_cuts ha ?_ (fun t ht => hsub t (mem_filter.mp ht).1) hm hd hne
      exact ne_nil_of_length_pos (by omega)
    · cases hm

/-! ### Forms of loops -/

/-- A block that only decides between going on at `inside` and at `follow`. -/
structure Decides (l : Layout) (b : BlockId) (block : Block) (test : Expr) (inside follow : BlockId) :
    Prop where
  block? : l.block? b = some block
  exit : ∃ e t f, ∃ side : Walk.Side, block.exit = .cond e t f ∧ inside = side.arm t f ∧
    follow = side.rest t f ∧ test = side.test e

variable {info : Loop}

theorem guard?_some {form} (h : l.guard? info = some form) :
    ∃ test inside follow block, form = .guarded test inside follow ∧ l.Decides info.header block test inside follow ∧
    block.stmts = [] ∧ inside ∈ info.body ∧ follow ∉ info.body := by
  unfold guard? at h
  split at h
  · rename_i id e t f stack hb
    split at h
    · rename_i ht hf
      cases h
      exact ⟨e, t, f, _, rfl, ⟨hb, e, t, f, .taken, rfl, rfl, rfl, rfl⟩, rfl, by simpa using ht,
        by simpa using hf⟩
    · rename_i ht hf
      cases h
      exact ⟨e.negate, f, t, _, rfl, ⟨hb, e, t, f, .fall, rfl, rfl, rfl, rfl⟩, rfl, by simpa using hf,
        by simpa using ht⟩
    · cases h
  · cases h

theorem latchTest?_some {form} (h : l.latchTest? info = some form) :
    ∃ latch test follow block, form = .tested latch test follow ∧ info.latches = [latch] ∧
    l.Decides latch block test info.header follow ∧ follow ∉ info.body := by
  unfold latchTest? at h
  split at h
  · rename_i latch hl
    split at h
    · rename_i id stmts e t f stack hb
      split at h
      · split at h
        · rename_i hform
          cases h
          exact ⟨latch, e, f, _, rfl, hl, ⟨hb, e, t, f, .taken, rfl, hform.1.symm, rfl, rfl⟩,
            by simpa using hform.2⟩
        · split at h
          · rename_i hform
            cases h
            exact ⟨latch, e.negate, t, _, rfl, hl, ⟨hb, e, t, f, .fall, rfl, hform.1.symm, rfl, rfl⟩,
              by simpa using hform.2⟩
          · cases h
      · cases h
    · cases h
  · cases h

variable {follow : BlockId}

theorem loopForm_eq (l : Layout) (info : Loop) : l.guard? info = some (l.loopForm info) ∨
    l.latchTest? info = some (l.loopForm info) ∨ l.loopForm info = .endless (l.loopExit info) := by
  unfold loopForm
  cases l.guard? info <;> cases l.latchTest? info <;> simp

theorem loopForm_guarded {test inside} (h : l.loopForm info = .guarded test inside follow) :
    ∃ block, l.Decides info.header block test inside follow ∧ block.stmts = [] ∧ inside ∈ info.body ∧
    follow ∉ info.body := by
  have hform := l.loopForm_eq info
  rw [h] at hform
  rcases hform with hg | ht | he
  · obtain ⟨_, _, _, block, heq, hd⟩ := guard?_some hg
    cases heq
    exact ⟨block, hd⟩
  · obtain ⟨_, _, _, _, heq, -⟩ := latchTest?_some ht
    cases heq
  · cases he

theorem loopForm_tested {latch test} (h : l.loopForm info = .tested latch test follow) :
    ∃ block, info.latches = [latch] ∧ l.Decides latch block test info.header follow ∧ follow ∉ info.body := by
  have hform := l.loopForm_eq info
  rw [h] at hform
  rcases hform with hg | ht | he
  · obtain ⟨_, _, _, _, heq, -⟩ := guard?_some hg
    cases heq
  · obtain ⟨_, _, _, block, heq, hd⟩ := latchTest?_some ht
    cases heq
    exact ⟨block, hd⟩
  · cases he

theorem loopForm_endless (h : l.loopForm info = .endless (some follow)) : ∃ x ∈ info.body, follow ∈ l.succs x ∧
    follow ∉ info.body := by
  have hform := l.loopForm_eq info
  rw [h] at hform
  rcases hform with hg | ht | he
  · obtain ⟨_, _, _, _, heq, -⟩ := guard?_some hg
    cases heq
  · obtain ⟨_, _, _, _, heq, -⟩ := latchTest?_some ht
    cases heq
  · have hexit := LoopForm.endless.inj he
    have hmem : follow ∈ sortedSet ((info.body.flatMap l.succs).filter fun s => !info.body.contains s) := by
      rcases Option.or_eq_some_iff.mp hexit.symm with h | ⟨-, h⟩
      · exact mem_of_find?_eq_some h
      · exact mem_of_mem_head? h
    simp only [mem_sortedSet, mem_filter, mem_flatMap, Bool.not_eq_true',
      contains_eq_mem, decide_eq_false_iff_not] at hmem
    obtain ⟨⟨x, hx, hs⟩, hout⟩ := hmem
    exact ⟨x, hx, hs, hout⟩

end

end Layout

end JvmLift
