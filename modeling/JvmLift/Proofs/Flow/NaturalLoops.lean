import JvmLift.Proofs.Flow.Dominators

/-!
# Natural loops

The body of a loop is closed under predecessors up to its header, which cuts every block of the body
off from the entry. When all nodes are reachable, the header reaches every block of the body inside
the body.
-/
namespace JvmLift.FlowGraph

open List

open Relation (ReflTransGen)

variable {g : FlowGraph} {info : Loop} {x y : BlockId}

theorem mem_preds : y ∈ g.preds x ↔ x ∈ g.succs y := by
  unfold preds succs
  simp only [mem_map, mem_filter, contains_iff_mem, Prod.exists,
    exists_and_right, exists_eq_right, Std.TreeMap.mem_toList_iff_getElem?_eq_some]
  constructor
  · rintro ⟨n, hn, hx⟩
    rw [hn]
    exact hx
  · intro h
    split at h
    · rename_i n hn
      exact ⟨n, hn, h⟩
    · cases h

theorem isNode_of_mem_succs (h : y ∈ g.succs x) : g.isNode x = true := by
  unfold succs at h
  unfold isNode
  split at h
  · rename_i n hn
    rw [Std.TreeMap.contains_eq_isSome_getElem?, hn]
    rfl
  · cases h

theorem mem_predTable : y ∈ g.predTable.getD x [] ↔ g.isNode x = true ∧ x ∈ g.succs y := by
  unfold predTable
  have hdistinct : (g.ids.map fun b => (b, g.preds b)).Pairwise
      fun p q => ¬compare p.1 q.1 = .eq := by
    rw [pairwise_map]
    exact g.nodes.distinct_keys
  by_cases hx : g.isNode x = true
  · have hmem : (x, g.preds x) ∈ g.ids.map fun b => (b, g.preds b) :=
      mem_map.mpr ⟨x, mem_ids.mpr hx, rfl⟩
    rw [Std.TreeMap.getD_ofList_of_mem (by simp) hdistinct hmem]
    simp [hx, mem_preds]
  · rw [Std.TreeMap.getD_ofList_of_contains_eq_false]
    · simp [hx]
    · simp [mem_ids, hx]

theorem mem_latches (he : g.isNode g.entry = true) {h b} :
    b ∈ g.latches g.dominators g.reversePostorder h ↔ b ∈ g.reversePostorder ∧ g.Cuts h b ∧ h ∈ g.succs b := by
  unfold latches
  simp only [mem_flatMap]
  constructor
  · rintro ⟨c, hc, hb⟩
    split at hb
    · rename_i hdom
      simp only [mem_map, mem_filter, beq_iff_eq] at hb
      obtain ⟨_, ⟨hs, rfl⟩, rfl⟩ := hb
      exact ⟨hc, (dominates_dominators he hc).mp hdom, hs⟩
    · cases hb
  · rintro ⟨hb, hcut, hs⟩
    refine ⟨b, hb, ?_⟩
    rw [if_pos ((dominates_dominators he hb).mpr hcut)]
    exact mem_map.mpr ⟨h, mem_filter.mpr ⟨hs, by simp⟩, rfl⟩

def loopAt (g : FlowGraph) (h : BlockId) : Loop where
  header := h
  latches := g.latches g.dominators g.reversePostorder h
  body := g.ids.filter fun b => b == h ||
    (closure (fun b => (g.predTable.getD b []).filter (· ≠ h)) g.nodes.size
      ((g.latches g.dominators g.reversePostorder h).filter (· ≠ h)).eraseDups).contains b

theorem naturalLoops_eq_filterMap (g : FlowGraph) :
    g.naturalLoops = g.ids.filterMap fun h => if (g.loopAt h).latches.isEmpty then none else some (g.loopAt h) :=
  rfl

theorem mem_naturalLoops : info ∈ g.naturalLoops ↔
    g.isNode info.header = true ∧ (∃ latch, latch ∈ info.latches) ∧ g.loopAt info.header = info := by
  rw [naturalLoops_eq_filterMap, mem_filterMap]
  constructor
  · rintro ⟨h, hh, heq⟩
    split at heq
    · cases heq
    · rename_i hne
      cases heq
      exact ⟨mem_ids.mp hh, exists_mem_of_ne_nil _ (by simpa using hne), rfl⟩
  · rintro ⟨hnode, ⟨latch, hlatch⟩, heq⟩
    refine ⟨info.header, mem_ids.mpr hnode, ?_⟩
    rw [heq, if_neg (by simpa using ne_nil_of_mem hlatch)]

theorem body_eq (h : info ∈ g.naturalLoops) : info.body = g.ids.filter fun b => b == info.header ||
      (closure (fun b => (g.predTable.getD b []).filter (· ≠ info.header)) g.nodes.size
        (info.latches.filter (· ≠ info.header)).eraseDups).contains b := by
  rw [← (mem_naturalLoops.mp h).2.2]
  rfl

theorem latch_cuts (he : g.isNode g.entry = true) (h : info ∈ g.naturalLoops) (hx : x ∈ info.latches) :
    g.Cuts info.header x ∧ info.header ∈ g.succs x := by
  rw [← (mem_naturalLoops.mp h).2.2] at hx
  exact ((mem_latches he).mp hx).2

theorem mem_body_iff (he : g.isNode g.entry = true) (h : info ∈ g.naturalLoops) :
    x ∈ info.body ↔ g.isNode x = true ∧ (x = info.header ∨ ∃ latch ∈ info.latches, latch ≠ info.header ∧ ReflTransGen
        (fun x y => g.isNode x = true ∧ x ∈ g.succs y ∧ y ≠ info.header) latch x) := by
  have hnext : ∀ x ∈ g.ids, ∀ y ∈ (g.predTable.getD x []).filter (· ≠ info.header), y ∈ g.ids :=
    fun x _ y hy => mem_ids.mpr (isNode_of_mem_succs (mem_predTable.mp (mem_filter.mp hy).1).2)
  have hstart : ∀ x ∈ (info.latches.filter (· ≠ info.header)).eraseDups, x ∈ g.ids := fun x hx =>
    have hx := latch_cuts he h (mem_filter.mp (mem_eraseDups.mp hx)).1
    mem_ids.mpr (isNode_of_mem_succs hx.2)
  rw [body_eq h, mem_filter, mem_ids, Bool.or_eq_true, beq_iff_eq,
    Std.TreeSet.contains_iff_mem,
    mem_closure_iff hnext hstart (by simp [ids])]
  simp only [mem_eraseDups, mem_filter, mem_predTable, decide_eq_true_eq, and_assoc]

theorem header_mem_body (h : info ∈ g.naturalLoops) : info.header ∈ info.body := by
  rw [body_eq h]
  exact mem_filter.mpr ⟨mem_ids.mpr (mem_naturalLoops.mp h).1, by simp⟩

variable (he : g.isNode g.entry = true)

include he

section

variable (h : info ∈ g.naturalLoops)

include h

theorem latch_mem_body (hx : x ∈ info.latches) : x ∈ info.body := by
  refine (mem_body_iff he h).mpr ⟨isNode_of_mem_succs (latch_cuts he h hx).2, ?_⟩
  by_cases hxh : x = info.header
  · exact .inl hxh
  · exact .inr ⟨x, hx, hxh, .refl⟩

theorem pred_mem_body (hx : x ∈ info.body) (hxh : x ≠ info.header) (hy : x ∈ g.succs y) : y ∈ info.body := by
  obtain ⟨hxn, hx⟩ := (mem_body_iff he h).mp hx
  refine (mem_body_iff he h).mpr ⟨isNode_of_mem_succs hy, ?_⟩
  by_cases hyh : y = info.header
  · exact .inl hyh
  · obtain ⟨latch, hl, hlh, hr⟩ := hx.resolve_left hxh
    exact .inr ⟨latch, hl, hlh, hr.tail ⟨hxn, hy, hyh⟩⟩

theorem cuts_of_mem_body (hx : x ∈ info.body) : g.Cuts info.header x := by
  obtain ⟨-, rfl | ⟨latch, hl, hlh, hr⟩⟩ := (mem_body_iff he h).mp hx
  · exact Cuts.refl g _
  · suffices g.Cuts info.header x ∧ x ≠ info.header from this.1
    clear hx
    induction hr with
    | refl => exact ⟨(latch_cuts he h hl).1, hlh⟩
    | tail _ hxy ih =>
        obtain ⟨hn, hs, hne⟩ := hxy
        exact ⟨ih.1.pred (mem_allSuccs_of_mem_succs hs hn) ih.2, hne⟩

theorem path_of_mem_body (hx : x ∈ info.body) (hxh : x ≠ info.header) : ∃ latch ∈ info.latches, latch ≠ info.header ∧
      ReflTransGen (fun x y => x ∈ g.succs y ∧ y ∈ info.body ∧ y ≠ info.header) latch x := by
  obtain ⟨latch, hl, hlh, hr⟩ := ((mem_body_iff he h).mp hx).2.resolve_left hxh
  refine ⟨latch, hl, hlh, ?_⟩
  clear hx hxh
  induction hr with
  | refl => exact .refl
  | tail hr hxy ih =>
      refine ih.tail ⟨hxy.2.1, ?_, hxy.2.2⟩
      exact (mem_body_iff he h).mpr
        ⟨isNode_of_mem_succs hxy.2.1, .inr ⟨latch, hl, hlh, hr.tail hxy⟩⟩

theorem header_reaches (hr : ReflTransGen (fun x y => y ∈ g.succs x) g.entry x) (hx : x ∈ info.body) :
    ReflTransGen (fun x y => y ∈ g.succs x ∧ y ∈ info.body) info.header x := by
  induction hr with
  | refl =>
      have : info.header = g.entry := by
        by_contra hne
        exact cuts_of_mem_body he h hx ⟨Ne.symm hne, .refl⟩
      exact this ▸ .refl
  | tail _ hxy ih =>
      rename_i y z _
      by_cases hz : z = info.header
      · exact hz ▸ .refl
      · exact (ih (pred_mem_body he h hx hz hxy)).tail ⟨hxy, hx⟩

end

theorem cuts_header_of_exit {info'}
    (hreach : ∀ x, g.isNode x = true → ReflTransGen (fun x y => y ∈ g.succs x) g.entry x)
    (hnode : ∀ x y, y ∈ g.succs x → g.isNode y = true)
    (h : info ∈ g.naturalLoops) (h' : info' ∈ g.naturalLoops) (hx : x ∈ info.body)
    (hy : y ∈ g.succs x) (hout : y ∉ info.body) (hy' : y ∈ info'.body) (hne : y ≠ info'.header) :
    g.Cuts info'.header info.header := by
  by_contra hcut
  -- the header of the outer loop is not in the inner one: else the way back to it would be, too
  have hout' : info'.header ∉ info.body := by
    intro hin
    have hne' : info'.header ≠ info.header := fun heq => hcut (heq ▸ Cuts.refl g _)
    obtain ⟨latch, hl, -, hr⟩ := path_of_mem_body he h' hy' hne
    have hlatch : latch ∈ info.body := pred_mem_body he h hin hne' (latch_cuts he h' hl).2
    refine hout ?_
    have hl' := latch_mem_body he h' hl
    suffices y ∈ info.body ∧ y ∈ info'.body from this.1
    clear hy' hne hy hout
    induction hr with
    | refl => exact ⟨hlatch, hl'⟩
    | tail _ hxy ih =>
        refine ⟨pred_mem_body he h ih.1 (fun ha => hcut ?_) hxy.1, hxy.2.1⟩
        exact ha ▸ cuts_of_mem_body he h' ih.2
  have hcutx : g.Cuts info'.header x :=
    (cuts_of_mem_body he h' hy').pred (mem_allSuccs_of_mem_succs hy (hnode x y hy)) hne
  have hev : g.Evades info'.header info.header := not_not.mp hcut
  refine hcutx (hev.along ?_)
  refine ReflTransGen.mono (fun a b hab => ?_) _ _
    (header_reaches he h (hreach x (isNode_of_mem_succs hy)) hx)
  exact ⟨mem_allSuccs_of_mem_succs hab.1 (hnode a b hab.1), fun hb => hout' (hb ▸ hab.2)⟩

end JvmLift.FlowGraph
